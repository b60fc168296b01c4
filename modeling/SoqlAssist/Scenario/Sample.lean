/-!
Sample queries that the grammar reads without an error.
-/
namespace SoqlAssist.Scenario

/-- Samples from the plain to the nested, the last with most clauses at once. -/
def samples : List String :=
  ["SELECT Id, Name FROM Account",
    "SELECT Id, Name FROM Account WHERE Name LIKE 'Acme%' AND AnnualRevenue > 1000",
    "SELECT Id, (SELECT LastName FROM Contacts) FROM Account",
    "SELECT Id FROM Account WHERE Id IN (SELECT AccountId FROM Opportunity " ++
      "WHERE IsClosed = false)",
    "SELECT Industry, COUNT(Id) FROM Account GROUP BY Industry HAVING COUNT(Id) > 1",
    "SELECT Id FROM Opportunity WHERE CloseDate = LAST_N_DAYS:30 " ++
      "ORDER BY CloseDate DESC LIMIT 10",
    "SELECT Id, Name, Owner.Name, (SELECT LastName, Email FROM Contacts ORDER BY LastName) " ++
      "FROM Account " ++
      "WHERE Industry IN ('Energy', 'Media') AND Id NOT IN (SELECT AccountId FROM Case) " ++
      "AND CreatedDate > 2024-01-01T00:00:00Z " ++
      "ORDER BY Name ASC NULLS LAST LIMIT 100 OFFSET 10"]

end SoqlAssist.Scenario
