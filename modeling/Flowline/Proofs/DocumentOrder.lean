import Flowline.Proofs.Grammar

/-! Searching in document order. A search goes through a tree with a stack, one hit at a time. What is still ahead of it
    is the recursive list of the trees at and below those on the stack, from its top down; a visit of the top takes the
    first of them off. So a search ends, and its hits are those of the recursive list. That list has each place in the
    tree where the tag stands once, and the places are in lexicographic order: a tree comes before those below it, and
    what is below one child before what is below the next. -/

namespace Flowline

/-! ### Searches -/

namespace Search

/-- The search yields these hits one after the other, and then no more. -/
inductive Yields : Search → List Tree → Prop
  | done {s : Search} (h : s.next? = none) : s.Yields []
  | hit {s s' : Search} {t : Tree} {hits : List Tree} (h : s.next? = some (t, s')) (hrest : s'.Yields hits) :
      s.Yields (t :: hits)

/-- The hits that are still ahead: those at and below the trees on the stack, from its top down. -/
def ahead (s : Search) : List Tree :=
  s.stack.toList.reverse.flatMap (·.findAll s.tag)

variable {s s' : Search} {t : Tree} {hits : List Tree}

theorem ahead_start (t : Tree) (tag : String) : (start t tag).ahead = t.findAll tag := by
  simp [ahead, start]

theorem ahead_of_back?_none (h : s.stack.back? = none) : s.ahead = [] := by
  have hempty : s.stack = #[] := by simpa using h
  simp [ahead, hempty]

/-- A visit of the top takes it off the hits if it is one, and leaves all others ahead in their order. -/
theorem ahead_of_back?_some (h : s.stack.back? = some t) :
    s.ahead = if t.tag == s.tag then t :: (s.visit t).ahead else (s.visit t).ahead := by
  obtain ⟨rest, hrest⟩ := Array.back?_eq_some_iff.mp h
  have hbefore : s.ahead = t.findAll s.tag ++ rest.toList.reverse.flatMap (·.findAll s.tag) := by
    simp [ahead, hrest]
  have hafter : (s.visit t).ahead =
      t.subtrees.flatMap (·.findAll s.tag) ++ rest.toList.reverse.flatMap (·.findAll s.tag) := by
    simp [ahead, visit, hrest, Tree.subtrees, List.filterMap_reverse]
  rw [hbefore, hafter, Tree.findAll_eq]
  split <;> rfl

theorem ahead_of_next?_none (h : s.next? = none) : s.ahead = [] := by
  fun_induction next? s with
  | case1 s htop => exact ahead_of_back?_none htop
  | case2 => cases h
  | case3 s t htop hne ih => rw [ahead_of_back?_some htop, if_neg hne, ih h]

theorem ahead_of_next?_some (h : s.next? = some (t, s')) : s.ahead = t :: s'.ahead := by
  fun_induction next? s with
  | case1 => cases h
  | case2 s u htop htag =>
    obtain ⟨rfl, rfl⟩ := Prod.mk.inj (Option.some.inj h)
    rw [ahead_of_back?_some htop, if_pos htag]
  | case3 s u htop hne ih => rw [ahead_of_back?_some htop, if_neg hne, ih h]

theorem Yields.eq_ahead (h : s.Yields hits) : hits = s.ahead := by
  induction h with
  | done h => rw [ahead_of_next?_none h]
  | hit h _ ih => rw [ahead_of_next?_some h, ih]

theorem yields_toList (s : Search) : s.Yields s.toList := by
  fun_induction toList s with
  | case1 s h => exact .done h
  | case2 s t s' h ih => exact .hit h ih

end Search

/-! ### Places -/

namespace Tree

/-- The tree at a place. A place is the row of the child indices that lead to it from the top. -/
def at? (t : Tree) (place : List Nat) : Option Tree :=
  place.foldlM treeAt? t

theorem at?_cons (t : Tree) (i : Nat) (below : List Nat) : t.at? (i :: below) = (t.treeAt? i).bind (·.at? below) :=
  List.foldlM_cons

theorem treeAt?_eq_some {t u : Tree} {i : Nat} : t.treeAt? i = some u ↔ t.children[i]? = some (.tree u) := by
  rw [treeAt?, Option.bind_eq_some_iff]
  constructor
  · rintro ⟨c, hc, hu⟩
    cases c with
    | tree c =>
      cases hu
      exact hc
    | token => cases hu
  · exact fun h => ⟨_, h, rfl⟩

mutual

/-- The places of the tree and of all trees below it. -/
def places : Tree → List (List Nat)
  | ⟨_, children⟩ => [] :: placesOfChildren 0 children

/-- The places at and below these children, the first of which has the given index. -/
def placesOfChildren (index : Nat) : List Child → List (List Nat)
  | [] => []
  | .token _ :: rest => placesOfChildren (index + 1) rest
  | .tree t :: rest => t.places.map (index :: ·) ++ placesOfChildren (index + 1) rest

end

theorem mem_placesOfChildren {index : Nat} {cs : List Child} {place : List Nat} :
    place ∈ placesOfChildren index cs ↔
      ∃ i u below, cs[i]? = some (.tree u) ∧ below ∈ u.places ∧ place = (index + i) :: below := by
  induction cs generalizing index with
  | nil => simp [placesOfChildren]
  | cons c rest ih =>
    rw [← Nat.or_exists_add_one]
    cases c with
    | token word => simp [placesOfChildren, ih, Nat.add_assoc, Nat.add_comm 1]
    | tree t => simp [placesOfChildren, ih, Nat.add_assoc, Nat.add_comm 1, eq_comm]

theorem mem_places {t : Tree} {place : List Nat} : place ∈ t.places ↔ ∃ u, t.at? place = some u := by
  induction place generalizing t with
  | nil =>
    obtain ⟨tag, children⟩ := t
    simp [places, at?]
  | cons i below ih =>
    obtain ⟨tag, children⟩ := t
    rw [places, List.mem_cons, mem_placesOfChildren]
    simp only [at?_cons, Option.bind_eq_some_iff, treeAt?_eq_some]
    constructor
    · rintro (h | ⟨_, c, _, hc, hbelow, heq⟩)
      · cases h
      · obtain ⟨rfl, rfl⟩ := List.cons.inj heq
        obtain ⟨u, hu⟩ := ih.mp hbelow
        exact ⟨u, c, by simpa using hc, hu⟩
    · rintro ⟨u, c, hc, hu⟩
      exact Or.inr ⟨i, c, below, hc, ih.mpr ⟨u, hu⟩, by simp⟩

mutual

theorem pairwise_places : ∀ t : Tree, t.places.Pairwise (· < ·)
  | ⟨_, children⟩ => by
    refine List.pairwise_cons.mpr ⟨fun place hplace => ?_, pairwise_placesOfChildren 0 children⟩
    obtain ⟨i, u, below, -, -, rfl⟩ := mem_placesOfChildren.mp hplace
    exact List.nil_lt_cons _ _

theorem pairwise_placesOfChildren (index : Nat) : ∀ cs : List Child, (placesOfChildren index cs).Pairwise (· < ·)
  | [] => .nil
  | .token _ :: rest => pairwise_placesOfChildren (index + 1) rest
  | .tree t :: rest => by
    refine List.pairwise_append.mpr ⟨?_, pairwise_placesOfChildren (index + 1) rest, ?_⟩
    · rw [List.pairwise_map]
      exact (pairwise_places t).imp List.cons_lt_cons_self.mpr
    · intro place hplace later hlater
      obtain ⟨below, -, rfl⟩ := List.mem_map.mp hplace
      obtain ⟨i, u, below', -, -, rfl⟩ := mem_placesOfChildren.mp hlater
      exact List.cons_lt_cons_iff.mpr (Or.inl (by omega))

end

mutual

theorem map_at?_places : ∀ t : Tree, t.places.map t.at? = t.descendants.map some
  | ⟨tag, children⟩ => by
    have hbelow := map_at?_placesOfChildren ⟨tag, children⟩ [] children rfl
    rw [places, descendants, List.map_cons, List.map_cons]
    exact congrArg (List.cons (some _)) hbelow

theorem map_at?_placesOfChildren (t : Tree) : ∀ (before cs : List Child), t.children = before ++ cs →
    (placesOfChildren before.length cs).map t.at? = (descendantsOfChildren cs).map some
  -- a place counts all children of `t`, so those on the left are carried along
  | _, [], _ => rfl
  | before, .token word :: rest, h => by
    have hrest := map_at?_placesOfChildren t (before ++ [.token word]) rest (by simp [h])
    simpa [placesOfChildren, descendantsOfChildren] using hrest
  | before, .tree u :: rest, h => by
    have hrest := map_at?_placesOfChildren t (before ++ [.tree u]) rest (by simp [h])
    have hu : (u.places.map (before.length :: ·)).map t.at? = u.descendants.map some := by
      have hhere : t.treeAt? before.length = some u := treeAt?_eq_some.mpr (by simp [h])
      rw [List.map_map, ← map_at?_places u]
      exact List.map_congr_left fun below _ => by rw [Function.comp_apply, at?_cons, hhere, Option.bind_some]
    rw [placesOfChildren, descendantsOfChildren, List.map_append, List.map_append, hu]
    simpa using hrest

end

/-- The places where a tag stands. -/
def placesTagged (t : Tree) (tag : String) : List (List Nat) :=
  t.places.filter fun place => (t.at? place).any (·.tag == tag)

theorem mem_placesTagged {t : Tree} {tag : String} {place : List Nat} :
    place ∈ t.placesTagged tag ↔ ∃ u, t.at? place = some u ∧ u.tag = tag := by
  rw [placesTagged, List.mem_filter, mem_places]
  constructor
  · rintro ⟨⟨u, hu⟩, htag⟩
    exact ⟨u, hu, by simpa [hu] using htag⟩
  · rintro ⟨u, hu, htag⟩
    exact ⟨⟨u, hu⟩, by simp [hu, htag]⟩

theorem map_at?_placesTagged (t : Tree) (tag : String) :
    (t.placesTagged tag).map t.at? = (t.findAll tag).map some := by
  have hfilter : (t.places.map t.at?).filter (·.any (·.tag == tag)) = (t.findAll tag).map some := by
    rw [map_at?_places, List.filter_map]
    rfl
  rw [← hfilter, List.filter_map]
  rfl

end Tree

/-- The search of a tree ends, and yields the trees of the recursive list that have the tag, in its order. They are the
    trees at the places where the tag stands, each place once, from the first to the last in lexicographic order. -/
theorem search_in_document_order (t : Tree) (tag : String) :
    (∀ hits, (Search.start t tag).Yields hits ↔ hits = t.findAll tag) ∧
      (Search.start t tag).toList = t.findAll tag ∧
      ∃ places : List (List Nat), places.Pairwise (· < ·) ∧
        (∀ place, place ∈ places ↔ ∃ u, t.at? place = some u ∧ u.tag = tag) ∧
        places.map t.at? = (t.findAll tag).map some := by
  have hall := (Search.start t tag).yields_toList
  have hyields : ∀ hits, (Search.start t tag).Yields hits → hits = t.findAll tag := fun hits h => by
    rw [h.eq_ahead, Search.ahead_start]
  refine ⟨fun hits => ⟨hyields hits, ?_⟩, hyields _ hall, t.placesTagged tag, t.pairwise_places.filter _,
    fun _ => Tree.mem_placesTagged, t.map_at?_placesTagged tag⟩
  rintro rfl
  rwa [hyields _ hall] at hall

end Flowline
