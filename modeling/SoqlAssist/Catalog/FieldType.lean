/-!
The types of object fields.
-/
namespace SoqlAssist

/-- The declared type of a field. -/
inductive FieldType where
  | id | reference | boolean
  | int | long | double | currency | percent
  | string | textArea | picklist | multiPicklist | combobox | email | phone | url
  | date | dateTime | time
  | address | location | encryptedString | base64
  deriving DecidableEq, Repr

namespace FieldType

def all : List FieldType :=
  [.id, .reference, .boolean, .int, .long, .double, .currency, .percent, .string, .textArea,
    .picklist, .multiPicklist, .combobox, .email, .phone, .url, .date, .dateTime, .time, .address,
    .location, .encryptedString, .base64]

def name : FieldType → String
  | .id => "id"
  | .reference => "reference"
  | .boolean => "boolean"
  | .int => "int"
  | .long => "long"
  | .double => "double"
  | .currency => "currency"
  | .percent => "percent"
  | .string => "string"
  | .textArea => "textarea"
  | .picklist => "picklist"
  | .multiPicklist => "multipicklist"
  | .combobox => "combobox"
  | .email => "email"
  | .phone => "phone"
  | .url => "url"
  | .date => "date"
  | .dateTime => "datetime"
  | .time => "time"
  | .address => "address"
  | .location => "location"
  | .encryptedString => "encryptedstring"
  | .base64 => "base64"

def ofName? (s : String) : Option FieldType :=
  all.find? (·.name == s)

def numeric : List FieldType := [.int, .long, .double, .currency, .percent]

/-- Texts of one value. -/
def textual : List FieldType :=
  [.string, .textArea, .picklist, .combobox, .email, .phone, .url]

def temporal : List FieldType := [.date, .dateTime, .time]

def references : List FieldType := [.id, .reference]

/-- Types whose values have an order. -/
def ordered : List FieldType := numeric ++ textual ++ temporal ++ references

def calendar : List FieldType := [.date, .dateTime]

end FieldType

end SoqlAssist
