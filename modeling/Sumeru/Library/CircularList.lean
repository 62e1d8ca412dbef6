import Mathlib.Data.List.Chain
import Mathlib.Data.List.Nodup

/-!
# Circular lists

Doubly linked lists that close at a head node, as two maps {lit}`next` and {lit}`prev` on
nodes.  The contents of a circle is the list of its nodes from the head on.  The three edits
(take a node out, put a node in, put one node in the place of another) change the maps next
to the node only.

Main results:

- Theorem {lit}`Circle.seam`: the neighbours of every place of the list.
- Theorem {lit}`Circle.splice`: any change between two places of the list.
- Theorems {lit}`Circle.unlink`, {lit}`Circle.insert` and {lit}`Circle.replace`: the edits.
-/

namespace CircularList

variable {α : Type*} {next prev next' prev' : α → α} {head x y : α} {l l₁ l₂ : List α}

/-- {lit}`y` follows {lit}`x`, in both directions. -/
def Linked (next prev : α → α) (x y : α) : Prop := next x = y ∧ prev y = x

/-- The nodes of the circle behind {lit}`head` are {lit}`l`. -/
structure Circle (next prev : α → α) (head : α) (l : List α) : Prop where
  nodup : (head :: l).Nodup
  chain : (head :: (l ++ [head])).IsChain (Linked next prev)

/-- The empty circle. -/
theorem circle_nil (hn : next head = head) (hp : prev head = head) :
    Circle next prev head [] where
  nodup := List.nodup_singleton head
  chain := by
    rw [List.nil_append, List.isChain_pair]
    exact ⟨hn, hp⟩

/-- A chain reads {lit}`next` of all its nodes but the last, and {lit}`prev` of all but the
first. -/
theorem isChain_congr (h : l.IsChain (Linked next prev))
    (hn : ∀ x ∈ l.dropLast, next' x = next x) (hp : ∀ x ∈ l.tail, prev' x = prev x) :
    l.IsChain (Linked next' prev') := by
  induction l with
  | nil => exact .nil
  | cons a l ih =>
      cases l with
      | nil => exact .singleton a
      | cons b l =>
          rw [List.isChain_cons_cons] at h ⊢
          refine ⟨⟨?_, ?_⟩, ih h.2 (fun x hx => hn x ?_) fun x hx => hp x (List.mem_of_mem_tail hx)⟩
          · rw [hn a (by simp), h.1.1]
          · rw [hp b (by simp), h.1.2]
          · simp only [List.dropLast_cons_cons, List.mem_cons]
            exact Or.inr hx

/-- A chain through two nodes {lit}`x` and {lit}`y`. -/
theorem isChain_between {R : α → α → Prop} {u v mid : List α} :
    (u ++ x :: (mid ++ y :: v)).IsChain R ↔
      (u ++ [x]).IsChain R ∧ (x :: (mid ++ [y])).IsChain R ∧ (y :: v).IsChain R := by
  rw [List.isChain_split]
  rw [← List.cons_append]
  exact and_congr_right fun _ => List.isChain_split

namespace Circle

/-- A circle only depends on the links of its nodes. -/
theorem congr (h : Circle next prev head l) (hn : ∀ x ∈ head :: l, next' x = next x)
    (hp : ∀ x ∈ head :: l, prev' x = prev x) : Circle next' prev' head l where
  nodup := h.nodup
  chain := by
    refine isChain_congr h.chain (fun x hx => hn x ?_) fun x hx => hp x ?_
    · rw [← List.cons_append, List.dropLast_concat] at hx
      exact hx
    · simp only [List.tail_cons, List.mem_append, List.mem_singleton] at hx
      rw [List.mem_cons]
      exact hx.symm

/-- The closed list with its last node on the left and its first node on the right named. -/
theorem closed_eq (head : α) (l₁ l₂ : List α) :
    ∃ u v, head :: l₁ = u ++ [l₁.getLastD head] ∧ l₂ ++ [head] = l₂.headD head :: v ∧
      ∀ mid, head :: ((l₁ ++ (mid ++ l₂)) ++ [head]) =
        u ++ l₁.getLastD head :: (mid ++ l₂.headD head :: v) := by
  have hu : head :: l₁ = (head :: l₁).dropLast ++ [l₁.getLastD head] := by
    have hlast := List.dropLast_append_getLast (List.cons_ne_nil head l₁)
    rw [List.getLast_eq_getLastD] at hlast
    exact hlast.symm
  obtain ⟨v, hv⟩ : ∃ v, l₂ ++ [head] = l₂.headD head :: v := by
    cases l₂ with
    | nil => exact ⟨[], rfl⟩
    | cons b l => exact ⟨l ++ [head], rfl⟩
  refine ⟨_, v, hu, hv, fun mid => ?_⟩
  calc head :: ((l₁ ++ (mid ++ l₂)) ++ [head])
      = (head :: l₁) ++ (mid ++ (l₂ ++ [head])) := by simp
    _ = _ := by rw [hv, hu]; simp

/-- The nodes on the two sides of a place of the list are linked. -/
theorem seam (h : Circle next prev head (l₁ ++ l₂)) :
    Linked next prev (l₁.getLastD head) (l₂.headD head) := by
  obtain ⟨u, v, -, -, hclosed⟩ := closed_eq head l₁ l₂
  have hchain := h.chain
  rw [← List.nil_append l₂, hclosed] at hchain
  exact (List.isChain_append_cons_cons.mp hchain).2.1

/-- The first node. -/
theorem next_head (h : Circle next prev head l) : next head = l.headD head := by
  have hseam : Linked next prev ([].getLastD head) (l.headD head) := seam h
  exact hseam.1

/-- The last node. -/
theorem prev_head (h : Circle next prev head l) : prev head = l.getLastD head := by
  have hseam : Linked next prev (l.getLastD head) ([].headD head) := seam (by rwa [List.append_nil])
  exact hseam.2

/-- The node behind {lit}`x`. -/
theorem next_eq (h : Circle next prev head (l₁ ++ x :: l₂)) : next x = l₂.headD head := by
  have hseam : Linked next prev ((l₁ ++ [x]).getLastD head) (l₂.headD head) :=
    seam (by rwa [List.append_assoc])
  rw [List.getLastD_concat] at hseam
  exact hseam.1

/-- The node in front of {lit}`x`. -/
theorem prev_eq (h : Circle next prev head (l₁ ++ x :: l₂)) : prev x = l₁.getLastD head :=
  h.seam.2

/-- A walk along {lit}`next` from the head comes to every node. -/
theorem iterate_next (h : Circle next prev head (l₁ ++ x :: l₂)) :
    next^[l₁.length + 1] head = x := by
  induction l₁ using List.reverseRecOn generalizing x l₂ with
  | nil => exact h.next_head
  | append_singleton l₁ y ih =>
      rw [List.append_assoc, List.singleton_append] at h
      rw [List.length_append, List.length_singleton, Function.iterate_succ_apply', ih h]
      exact h.next_eq

/-- The nodes from the head to the place keep their links. -/
theorem isChain_left {u v : List α} (hall : (head :: (l₁ ++ l₂)).Nodup)
    (hu : head :: l₁ = u ++ [l₁.getLastD head]) (hv : l₂ ++ [head] = l₂.headD head :: v)
    (h : (u ++ [l₁.getLastD head]).IsChain (Linked next prev))
    (hn : ∀ z ∈ head :: (l₁ ++ l₂), z ≠ l₁.getLastD head → next' z = next z)
    (hp : ∀ z ∈ head :: (l₁ ++ l₂), z ≠ l₂.headD head → prev' z = prev z) :
    (u ++ [l₁.getLastD head]).IsChain (Linked next' prev') := by
  rw [← List.cons_append, List.nodup_append'] at hall
  obtain ⟨hnodup, -, hdisj⟩ := hall
  refine isChain_congr h (fun z hz => ?_) fun z hz => ?_
  · rw [List.dropLast_concat] at hz
    have hmem : z ∈ head :: l₁ := by
      rw [hu]
      exact List.mem_append_left _ hz
    refine hn z (List.mem_append_left l₂ hmem) ?_
    rintro rfl
    rw [hu, List.nodup_append'] at hnodup
    exact hnodup.2.2 hz (List.mem_singleton_self _)
  · rw [← hu, List.tail_cons] at hz
    refine hp z (List.mem_append_left l₂ (List.mem_cons_of_mem head hz)) ?_
    rintro rfl
    have hfirst : l₂.headD head ∈ l₂ ++ [head] := by
      rw [hv]
      exact List.mem_cons_self
    rcases List.mem_append.mp hfirst with hfirst | hfirst
    · exact hdisj (List.mem_cons_of_mem head hz) hfirst
    · rw [List.mem_singleton] at hfirst
      rw [hfirst] at hz
      exact (List.nodup_cons.mp hnodup).1 hz

/-- The nodes from the place back to the head keep their links. -/
theorem isChain_right {u v : List α} (hall : (head :: (l₁ ++ l₂)).Nodup)
    (hu : head :: l₁ = u ++ [l₁.getLastD head]) (hv : l₂ ++ [head] = l₂.headD head :: v)
    (h : (l₂.headD head :: v).IsChain (Linked next prev))
    (hn : ∀ z ∈ head :: (l₁ ++ l₂), z ≠ l₁.getLastD head → next' z = next z)
    (hp : ∀ z ∈ head :: (l₁ ++ l₂), z ≠ l₂.headD head → prev' z = prev z) :
    (l₂.headD head :: v).IsChain (Linked next' prev') := by
  have hperm : (head :: (l₁ ++ l₂)).Perm (l₁ ++ (l₂ ++ [head])) := by
    rw [← List.append_assoc]
    exact (List.perm_append_singleton head (l₁ ++ l₂)).symm
  have hnodup : (l₂.headD head :: v).Nodup := by
    rw [← hv]
    exact (List.nodup_append'.mp (hperm.nodup hall)).2.1
  rw [← List.cons_append, List.nodup_append'] at hall
  refine isChain_congr h (fun z hz => ?_) fun z hz => ?_
  · rw [← hv, List.dropLast_concat] at hz
    refine hn z (List.mem_append_right (head :: l₁) hz) ?_
    rintro rfl
    refine hall.2.2 ?_ hz
    rw [hu]
    exact List.mem_append_right u (List.mem_singleton_self _)
  · rw [List.tail_cons] at hz
    refine hp z (hperm.mem_iff.mpr (List.mem_append_right l₁ ?_)) ?_
    · rw [hv]
      exact List.mem_cons_of_mem _ hz
    · rintro rfl
      exact (List.nodup_cons.mp hnodup).1 hz

/-- The first node of a place, or the head. -/
theorem headD_mem (head : α) (l₁ l₂ : List α) : l₂.headD head ∈ head :: (l₁ ++ l₂) := by
  cases l₂ with
  | nil => exact List.mem_cons_self
  | cons b l => simp

/-- The last node before a place, or the head. -/
theorem getLastD_mem (head : α) (l₁ l₂ : List α) : l₁.getLastD head ∈ head :: (l₁ ++ l₂) := by
  obtain ⟨u, -, hu, -⟩ := closed_eq head l₁ l₂
  rw [← List.cons_append, hu]
  simp

/-- The links stay inside the circle. -/
theorem next_mem (h : Circle next prev head l) (hx : x ∈ head :: l) : next x ∈ head :: l := by
  obtain rfl | hx := List.mem_cons.mp hx
  · rw [h.next_head]
    exact headD_mem x [] l
  · obtain ⟨l₁, l₂, rfl⟩ := List.append_of_mem hx
    rw [h.next_eq, List.append_cons]
    exact headD_mem head (l₁ ++ [x]) l₂

/-- The links back stay inside the circle. -/
theorem prev_mem (h : Circle next prev head l) (hx : x ∈ head :: l) : prev x ∈ head :: l := by
  obtain rfl | hx := List.mem_cons.mp hx
  · rw [h.prev_head]
    have hlast := getLastD_mem x l []
    rwa [List.append_nil] at hlast
  · obtain ⟨l₁, l₂, rfl⟩ := List.append_of_mem hx
    rw [h.prev_eq]
    exact getLastD_mem head l₁ (x :: l₂)

/-- What stands between two nodes is changed, and only the links into it. -/
theorem splice (mid mid' : List α) (h : Circle next prev head (l₁ ++ (mid ++ l₂)))
    (hnodup : (head :: (l₁ ++ (mid' ++ l₂))).Nodup)
    (hmid : (l₁.getLastD head :: (mid' ++ [l₂.headD head])).IsChain (Linked next' prev'))
    (hn : ∀ z ∈ head :: (l₁ ++ l₂), z ≠ l₁.getLastD head → next' z = next z)
    (hp : ∀ z ∈ head :: (l₁ ++ l₂), z ≠ l₂.headD head → prev' z = prev z) :
    Circle next' prev' head (l₁ ++ (mid' ++ l₂)) where
  nodup := hnodup
  chain := by
    obtain ⟨u, v, hu, hv, hclosed⟩ := closed_eq head l₁ l₂
    have hchain := h.chain
    rw [hclosed, isChain_between] at hchain
    have hall : (head :: (l₁ ++ l₂)).Nodup :=
      hnodup.sublist (((List.Sublist.refl l₁).append (List.sublist_append_right _ _)).cons_cons _)
    rw [hclosed, isChain_between]
    exact ⟨isChain_left hall hu hv hchain.1 hn hp, hmid,
      isChain_right hall hu hv hchain.2.2 hn hp⟩

/-- A node is taken out. -/
theorem unlink [DecidableEq α] (h : Circle next prev head (l₁ ++ x :: l₂)) :
    Circle (Function.update next (prev x) (next x)) (Function.update prev (next x) (prev x)) head
      (l₁ ++ l₂) := by
  have hnodup : (head :: (l₁ ++ l₂)).Nodup :=
    h.nodup.sublist (((List.Sublist.refl l₁).append (List.sublist_cons_self _ _)).cons_cons _)
  rw [h.next_eq, h.prev_eq]
  refine splice [x] [] h hnodup ?_ (fun z _ hz => ?_) fun z _ hz => ?_
  · rw [List.nil_append, List.isChain_pair]
    exact ⟨Function.update_self .., Function.update_self ..⟩
  · exact Function.update_of_ne hz ..
  · exact Function.update_of_ne hz ..

/-- A node is put in at a place, and {lit}`mid` with its links taken out. -/
theorem install [DecidableEq α] (mid : List α) (h : Circle next prev head (l₁ ++ (mid ++ l₂)))
    (hx : x ∉ head :: (l₁ ++ (mid ++ l₂))) :
    Circle (Function.update (Function.update next x (l₂.headD head)) (l₁.getLastD head) x)
      (Function.update (Function.update prev x (l₁.getLastD head)) (l₂.headD head) x) head
      (l₁ ++ x :: l₂) := by
  have hsub : (head :: (l₁ ++ l₂)).Sublist (head :: (l₁ ++ (mid ++ l₂))) :=
    ((List.Sublist.refl l₁).append (List.sublist_append_right _ _)).cons_cons _
  have hfresh : ∀ z ∈ head :: (l₁ ++ l₂), z ≠ x := fun z hz hzx => hx (hzx ▸ hsub.subset hz)
  have hnodup : (head :: (l₁ ++ x :: l₂)).Nodup := by
    have hperm : (head :: (l₁ ++ x :: l₂)).Perm (x :: head :: (l₁ ++ l₂)) :=
      (List.perm_middle.cons head).trans (List.Perm.swap x head _)
    rw [hperm.nodup_iff, List.nodup_cons]
    exact ⟨fun hz => hx (hsub.subset hz), h.nodup.sublist hsub⟩
  have hlast : x ≠ l₁.getLastD head := (hfresh _ (getLastD_mem head l₁ l₂)).symm
  have hfirst : x ≠ l₂.headD head := (hfresh _ (headD_mem head l₁ l₂)).symm
  refine splice mid [x] h hnodup ?_ (fun z hmem hz => ?_) fun z hmem hz => ?_
  · rw [List.singleton_append, List.isChain_cons_cons, List.isChain_pair]
    refine ⟨⟨Function.update_self .., ?_⟩, ?_, Function.update_self ..⟩
    · rw [Function.update_of_ne hfirst, Function.update_self]
    · rw [Function.update_of_ne hlast, Function.update_self]
  · rw [Function.update_of_ne hz, Function.update_of_ne (hfresh z hmem)]
  · rw [Function.update_of_ne hz, Function.update_of_ne (hfresh z hmem)]

/-- A node is put in at a place. -/
theorem insert [DecidableEq α] (h : Circle next prev head (l₁ ++ l₂))
    (hx : x ∉ head :: (l₁ ++ l₂)) :
    Circle (Function.update (Function.update next x (l₂.headD head)) (l₁.getLastD head) x)
      (Function.update (Function.update prev x (l₁.getLastD head)) (l₂.headD head) x) head
      (l₁ ++ x :: l₂) :=
  install [] h hx

/-- A node is put in the place of another. -/
theorem replace [DecidableEq α] (h : Circle next prev head (l₁ ++ x :: l₂))
    (hy : y ∉ head :: (l₁ ++ x :: l₂)) :
    Circle (Function.update (Function.update next y (next x)) (prev x) y)
      (Function.update (Function.update prev y (prev x)) (next x) y) head (l₁ ++ y :: l₂) := by
  rw [h.next_eq, h.prev_eq]
  exact install [x] h hy

end Circle

end CircularList
