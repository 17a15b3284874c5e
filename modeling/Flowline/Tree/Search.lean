import Flowline.Tree.Basic

/-!
Searching a tree one hit at a time. A search keeps the trees still to be visited on a stack; each step visits
trees until one has the tag, and the search can be resumed from where it stopped.
-/

namespace Flowline

namespace Tree

mutual

/-- The number of trees at and below a tree. -/
def size : Tree → Nat
  | ⟨_, children⟩ => sizeOfChildren children + 1

/-- The number of trees at and below these children. -/
def sizeOfChildren : List Child → Nat
  | [] => 0
  | .token _ :: rest => sizeOfChildren rest
  | .tree t :: rest => t.size + sizeOfChildren rest

end

/-- The number of trees at and below these trees. -/
def totalSize : List Tree → Nat
  | [] => 0
  | t :: rest => t.size + totalSize rest

theorem totalSize_append (ts us : List Tree) : totalSize (ts ++ us) = totalSize ts + totalSize us := by
  induction ts with
  | nil => simp [totalSize]
  | cons t rest ih => simp [totalSize, ih, Nat.add_assoc]

theorem totalSize_reverse (ts : List Tree) : totalSize ts.reverse = totalSize ts := by
  induction ts with
  | nil => rfl
  | cons t rest ih => simp [totalSize, totalSize_append, ih, Nat.add_comm]

theorem sizeOfChildren_eq (children : List Child) :
    sizeOfChildren children = totalSize (children.filterMap Child.tree?) := by
  induction children with
  | nil => rfl
  | cons c rest ih => cases c <;> simp [sizeOfChildren, totalSize, Child.tree?, List.filterMap_cons, ih]

theorem size_eq (t : Tree) : t.size = totalSize t.subtrees + 1 := by
  cases t
  rw [size, sizeOfChildren_eq]
  rfl

end Tree

/-- A search for the trees with a tag, in document order. The top of the stack is its last entry. -/
structure Search where
  tag : String
  stack : Array Tree

namespace Search

/-- The search of `t` and all trees below it. -/
def start (t : Tree) (tag : String) : Search :=
  ⟨tag, #[t]⟩

/-- The trees that the search has still to visit. -/
def remaining (s : Search) : Nat :=
  Tree.totalSize s.stack.toList

/-- Visits `t`, the top of the stack: its subtrees take its place, the last one pushed first. -/
def visit (s : Search) (t : Tree) : Search :=
  { s with stack := s.stack.pop ++ t.children.reverse.filterMap Child.tree? }

theorem remaining_visit_lt {s : Search} {t : Tree} (h : s.stack.back? = some t) :
    (s.visit t).remaining < s.remaining := by
  obtain ⟨rest, hrest⟩ := Array.back?_eq_some_iff.mp h
  have hpushed : Tree.totalSize (t.children.reverse.filterMap Child.tree?) = Tree.totalSize t.subtrees := by
    rw [List.filterMap_reverse, Tree.totalSize_reverse, Tree.subtrees]
  simp only [remaining, visit, hrest, Array.toList_push, Array.pop_push, Array.toList_appendList,
    Tree.totalSize_append, hpushed, Tree.totalSize, Tree.size_eq t]
  omega

/-- The next hit, and the search after it. -/
def next? (s : Search) : Option (Tree × Search) :=
  match _h : s.stack.back? with
  | none => none
  | some t => if t.tag == s.tag then some (t, s.visit t) else (s.visit t).next?
termination_by s.remaining
decreasing_by exact remaining_visit_lt ‹_›

theorem remaining_lt_of_next? {s s' : Search} {t : Tree} (h : s.next? = some (t, s')) :
    s'.remaining < s.remaining := by
  fun_induction next? s with
  | case1 => cases h
  | case2 s u htop =>
    obtain ⟨-, rfl⟩ := Prod.mk.inj (Option.some.inj h)
    exact remaining_visit_lt htop
  | case3 s u htop hne ih => exact Nat.lt_trans (ih h) (remaining_visit_lt htop)

/-- All hits that are left. -/
def toList (s : Search) : List Tree :=
  match _h : s.next? with
  | none => []
  | some (t, s') => t :: s'.toList
termination_by s.remaining
decreasing_by exact remaining_lt_of_next? ‹_›

end Search

end Flowline
