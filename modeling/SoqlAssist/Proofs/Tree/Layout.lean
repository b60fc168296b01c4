import SoqlAssist.Proofs.Tree.Forest

/-!
Building lays a forest out. Performing the steps of a forest adds its nodes at the end of the array,
adds its trees to the children of the innermost open rule and changes nothing else; so the tree
built from a forest holds exactly that forest.
-/
namespace SoqlAssist.TreeBuilder

open Forest

def adopt (ids : List Nat) (n : Node) : Node := { n with children := n.children ++ ids.toArray }

/-- What is between two moments of building: the forest was added and nothing else changed. -/
structure Adds (b b' : TreeBuilder) (F : Forest) : Prop where
  opened : b'.opened = b.opened
  size : b'.nodes.size = b.nodes.size + F.size
  kept : ∀ j < b.nodes.size, b.opened.head? ≠ some j → b'.nodes[j]? = b.nodes[j]?
  adopted : ∀ j, b.opened.head? = some j →
    b'.nodes[j]? = b.nodes[j]?.map (adopt (F.roots b.nodes.size))
  lodged : Lodged b'.nodes b.opened.head? b.nodes.size F

def Sound (b : TreeBuilder) : Prop := ∀ j ∈ b.opened, j < b.nodes.size

theorem Sound.head_lt {b : TreeBuilder} {j : Nat} (sound : b.Sound)
    (head : b.opened.head? = some j) : j < b.nodes.size :=
  sound j (List.mem_of_mem_head? head)

variable {b b₁ b₂ : TreeBuilder} {F G : Forest}

theorem Adds.sound (adds : Adds b b₁ F) (sound : b.Sound) : b₁.Sound := by
  intro j member
  rw [adds.opened] at member
  have bound := sound j member
  have grown := adds.size
  omega

theorem Adds.append (sound : b.Sound) (first : Adds b b₁ F) (second : Adds b₁ b₂ G) :
    Adds b b₂ (F ++ G) := by
  have opened : b₁.opened.head? = b.opened.head? := by rw [first.opened]
  have grown := first.size
  refine ⟨second.opened.trans first.opened, ?_, ?_, ?_, ?_⟩
  · rw [second.size, first.size, size_append, Nat.add_assoc]
  · intro j lt other
    rw [second.kept j (by omega) (opened ▸ other), first.kept j lt other]
  · intro j head
    rw [second.adopted j (opened.trans head), first.adopted j head, Option.map_map, first.size,
      roots_append]
    congr 1
    funext n
    simp [adopt]
  · refine Lodged.append_iff.mpr ⟨first.lodged.congr ?_, ?_⟩
    · intro j lower upper
      refine second.kept j (by omega) fun head => ?_
      have bound := sound.head_lt (opened.symm.trans head)
      omega
    · have placed := second.lodged
      rwa [opened, first.size] at placed

theorem size_addNode (nodes : Array Node) (parent : Option Nat) (kind : NodeKind) (start : Nat)
    (stop : Option Nat) : (addNode nodes parent kind start stop).size = nodes.size + 1 := by
  cases parent <;> simp [addNode]

/-- The new node and the children of its parent are all that adding changes. -/
theorem getElem?_addNode (nodes : Array Node) (parent : Option Nat) (kind : NodeKind)
    (start : Nat) (stop : Option Nat) (j : Nat) (above : ∀ p, parent = some p → p < nodes.size) :
    (addNode nodes parent kind start stop)[j]? =
      if j = nodes.size then some ⟨kind, parent, #[], start, stop⟩
      else if parent = some j then nodes[j]?.map (adopt [nodes.size]) else nodes[j]? := by
  cases parent with
  | none => simp only [addNode, Array.getElem?_push, reduceCtorEq, if_false]
  | some p =>
    have bound := above p rfl
    have push : adopt [nodes.size] =
        fun n => { n with children := n.children.push nodes.size } := by
      funext n
      simp [adopt]
    simp only [addNode, Array.getElem?_modify, Array.getElem?_push, Option.some.injEq, push]
    by_cases last : j = nodes.size
    · simp [last, Nat.ne_of_lt bound]
    · by_cases same : p = j <;> simp [last, same]

theorem adds_token (sound : b.Sound) (p : Nat) : Adds b (b.addToken p) (.leaf p .nil) := by
  have at_ (j : Nat) := getElem?_addNode b.nodes b.opened.head? (.token p) p (some p) j
    fun _ head => sound.head_lt head
  refine ⟨rfl, size_addNode .., ?_, ?_, ?_⟩
  · intro j lt other
    exact (at_ j).trans (by rw [if_neg (by omega), if_neg other])
  · intro j head
    have bound := sound.head_lt head
    exact (at_ j).trans (by rw [if_neg (by omega), if_pos head]; rfl)
  · exact ⟨(at_ _).trans (if_pos rfl), trivial⟩

theorem adds_nil : Adds b b .nil := by
  refine ⟨rfl, rfl, fun _ _ _ => rfl, ?_, trivial⟩
  intro j _
  have same : adopt [] = id := by
    funext n
    simp [adopt]
  rw [roots, same, Option.map_id, id]

theorem finishRule_eq {id : Nat} {rest : List Nat} (opened : b.opened = id :: rest) :
    b.finishRule =
      ⟨b.nodes.modify id fun n => { n with stop := lastStop b.nodes id }, rest⟩ := by
  obtain ⟨nodes, _⟩ := b
  subst opened
  rfl

/-- A rule is opened, filled and closed. -/
theorem adds_rule (sound : b.Sound) {rule : Rule} {position : Nat}
    (inside : Adds (b.startRule rule position) b₁ F) :
    Adds b b₁.finishRule (.node rule position F .nil) := by
  have at_ (j : Nat) := getElem?_addNode b.nodes b.opened.head? (.rule rule) position none j
    fun _ head => sound.head_lt head
  have grown : b₁.nodes.size = b.nodes.size + 1 + F.size := by
    rw [inside.size]
    exact congrArg (· + F.size) (size_addNode ..)
  have place : (b.startRule rule position).nodes.size = b.nodes.size + 1 := size_addNode ..
  have lodged : Lodged b₁.nodes (some b.nodes.size) (b.nodes.size + 1) F := by
    have placed := inside.lodged
    rwa [place] at placed
  have opened : b₁.opened = b.nodes.size :: b.opened := inside.opened
  have self : b₁.nodes[b.nodes.size]? = some ⟨.rule rule, b.opened.head?,
      (F.roots (b.nodes.size + 1)).toArray, position, none⟩ := by
    rw [inside.adopted b.nodes.size rfl, place]
    exact congrArg _ (at_ _) |>.trans (by simp [adopt])
  have before (j : Nat) (lt : j < b.nodes.size) :
      b₁.nodes[j]? = (b.startRule rule position).nodes[j]? := by
    refine inside.kept j (by omega) fun head => ?_
    have same : b.nodes.size = j := Option.some.inj head
    omega
  have closed (j : Nat) : b₁.finishRule.nodes[j]? =
      if b.nodes.size = j then
        b₁.nodes[j]?.map fun n => { n with stop := lastStop b₁.nodes b.nodes.size }
      else b₁.nodes[j]? := by
    rw [finishRule_eq opened, Array.getElem?_modify]
  have stop : lastStop b₁.nodes b.nodes.size = F.leaves.getLast? := by
    rw [lastStop, self]
    exact lodged.findSome_stop
  refine ⟨?_, ?_, ?_, ?_, ?_⟩
  · rw [finishRule_eq opened]
  · simp only [finishRule_eq opened, Array.size_modify, grown, size]
    omega
  · intro j lt other
    rw [closed, if_neg (by omega), before j lt]
    exact (at_ j).trans (by rw [if_neg (by omega), if_neg other])
  · intro j head
    have bound := sound.head_lt head
    rw [closed, if_neg (by omega), before j bound]
    exact (at_ j).trans (by rw [if_neg (by omega), if_pos head]; rfl)
  · refine ⟨?_, lodged.congr ?_, trivial⟩
    · rw [closed, if_pos rfl, self, stop]
      rfl
    · intro j lower upper
      rw [closed, if_neg (by omega)]

/-- Performing the steps of a forest adds the forest. -/
theorem run_steps (F : Forest) {b : TreeBuilder} (sound : b.Sound) : Adds b (b.run F.steps) F := by
  induction F generalizing b with
  | nil => exact adds_nil
  | leaf p next ih =>
    have first := adds_token sound p
    exact first.append sound (ih (first.sound sound))
  | node r s below next ihBelow ihNext =>
    have opened : (b.startRule r s).Sound := by
      have grown : (b.startRule r s).nodes.size = b.nodes.size + 1 := size_addNode ..
      intro j member
      rcases List.mem_cons.mp member with rfl | member
      · omega
      · have bound := sound j member
        omega
    have first := adds_rule sound (ihBelow opened)
    have second := ihNext (first.sound sound)
    have whole := first.append sound second
    rw [steps, run, List.foldl_cons, List.foldl_append, List.foldl_cons]
    exact whole

end SoqlAssist.TreeBuilder

namespace SoqlAssist.Tree

open Forest TreeBuilder

/-- The tree built from the steps of a forest holds the forest and nothing else. -/
theorem ofSteps_forest (F : Forest) :
    (ofSteps F.steps).size = F.size ∧ Lodged (ofSteps F.steps).nodes none 0 F := by
  have sound : TreeBuilder.empty.Sound := fun j member => absurd member List.not_mem_nil
  have adds := run_steps F sound
  have closed : ofSteps F.steps = ⟨(TreeBuilder.empty.run F.steps).nodes⟩ := by
    rw [ofSteps, toTree, finishAll, adds.opened]
    rfl
  rw [closed]
  refine ⟨?_, adds.lodged⟩
  have grown := adds.size
  rwa [show TreeBuilder.empty.nodes.size = 0 from rfl, Nat.zero_add] at grown

end SoqlAssist.Tree
