import Ecos.Lib.Ring

namespace Ring.Nodes
open List
variable {α : Type*} {n n' : Nodes α} {x y z w : α} {l pre post : List α}

/-- Every two neighbours of the list point at each other. -/
def Linked (n : Nodes α) : List α → Prop
  | x :: y :: l => (n.next x = y ∧ n.prev y = x) ∧ n.Linked (y :: l)
  | _ => True

attribute [local simp] Linked in
theorem linked_append : n.Linked (pre ++ x :: post) ↔ n.Linked (pre ++ [x]) ∧ n.Linked (x :: post) := by
  induction pre with
  | nil => simp [Linked]
  | cons a pre ih =>
    cases pre with
    | nil => simp [Linked]
    | cons b pre =>
      simp only [cons_append, Linked] at ih ⊢
      rw [ih]
      tauto

/-- The two pointers between neighbours. -/
theorem Linked.at_pair (linked : n.Linked (pre ++ x :: y :: post)) : n.next x = y ∧ n.prev y = x :=
  (linked_append.mp linked).2.1

/-- Only the forward pointers of all but the last and the backward pointers of
all but the first are read. -/
theorem Linked.congr (linked : n.Linked l) (next : ∀ w ∈ l.dropLast, n'.next w = n.next w)
    (prev : ∀ w ∈ l.tail, n'.prev w = n.prev w) : n'.Linked l := by
  induction l with
  | nil => trivial
  | cons a l ih =>
    cases l with
    | nil => trivial
    | cons b l =>
      obtain ⟨⟨forth, back⟩, rest⟩ := linked
      refine ⟨⟨(next a (by simp)).trans forth, (prev b (by simp)).trans back⟩, ih rest ?_ ?_⟩
      · intro w mem
        exact next w (by simp only [dropLast_cons_cons, mem_cons]; exact .inr mem)
      · intro w mem
        exact prev w (mem_of_mem_tail mem)

/-- Outside a stretch of a list nothing is lost by a change of the pointers
into, out of and inside the stretch. -/
theorem Linked.halves {mid : List α} (linked : n.Linked (pre ++ x :: (mid ++ z :: post)))
    (nodupNext : (pre ++ x :: (mid ++ z :: post)).dropLast.Nodup)
    (nodupPrev : (pre ++ x :: (mid ++ z :: post)).tail.Nodup)
    (next : ∀ w ∈ (pre ++ x :: (mid ++ z :: post)).dropLast, w ≠ x → w ∉ mid → n'.next w = n.next w)
    (prev : ∀ w ∈ (pre ++ x :: (mid ++ z :: post)).tail, w ≠ z → w ∉ mid → n'.prev w = n.prev w) :
    n'.Linked (pre ++ [x]) ∧ n'.Linked (z :: post) := by
  have forward : (pre ++ x :: (mid ++ z :: post)).dropLast = pre ++ x :: (mid ++ (z :: post).dropLast) := by
    rw [dropLast_append_of_ne_nil (by simp), dropLast_cons_of_ne_nil (by simp),
      dropLast_append_of_ne_nil (by simp)]
  have backward : (pre ++ x :: (mid ++ z :: post)).tail = (pre ++ [x]).tail ++ (mid ++ z :: post) := by
    rw [← singleton_append, ← append_assoc, tail_append_of_ne_nil (by simp)]
  rw [forward] at nodupNext next
  rw [backward] at nodupPrev prev
  have outer := linked_append.mp linked
  have inner : n.Linked (x :: mid ++ z :: post) := outer.2
  simp only [nodup_append, nodup_cons, mem_append, mem_cons] at nodupNext nodupPrev
  refine ⟨outer.1.congr ?_ ?_, (linked_append.mp inner).2.congr ?_ ?_⟩
  · intro w mem
    rw [dropLast_concat] at mem
    refine next w (mem_append_left _ mem) ?_ ?_
    · exact nodupNext.2.2 w mem x (.inl rfl)
    · intro inMid
      exact nodupNext.2.2 w mem w (.inr (.inl inMid)) rfl
  · intro w mem
    refine prev w (mem_append_left _ mem) ?_ ?_
    · exact nodupPrev.2.2 w mem z (.inr (.inl rfl))
    · intro inMid
      exact nodupPrev.2.2 w mem w (.inl inMid) rfl
  · intro w mem
    refine next w (by simp [mem]) ?_ ?_
    · rintro rfl
      exact nodupNext.2.1.1 (.inr mem)
    · intro inMid
      exact nodupNext.2.1.2.2.2 w inMid w mem rfl
  · intro w mem
    refine prev w (by simp only [mem_append, mem_cons]; tauto) ?_ ?_
    · rintro rfl
      exact nodupPrev.2.1.2.1.1 mem
    · intro inMid
      exact nodupPrev.2.1.2.2 w inMid w (.inr mem) rfl

/-- A node linked in between two neighbours. -/
theorem Linked.link (linked : n.Linked (pre ++ x :: z :: post))
    (nodupNext : (pre ++ x :: z :: post).dropLast.Nodup) (nodupPrev : (pre ++ x :: z :: post).tail.Nodup)
    (there : n'.next x = y ∧ n'.prev y = x) (back : n'.next y = z ∧ n'.prev z = y)
    (next : ∀ w ∈ (pre ++ x :: z :: post).dropLast, w ≠ x → n'.next w = n.next w)
    (prev : ∀ w ∈ (pre ++ x :: z :: post).tail, w ≠ z → n'.prev w = n.prev w) :
    n'.Linked (pre ++ x :: y :: z :: post) := by
  have whole : n.Linked (pre ++ x :: ([] ++ z :: post)) := linked
  obtain ⟨left, right⟩ := whole.halves nodupNext nodupPrev (fun w mem ne _ => next w mem ne)
    fun w mem ne _ => prev w mem ne
  exact linked_append.mpr ⟨left, there, back, right⟩

/-- A node unlinked from between its neighbours. -/
theorem Linked.unlink (linked : n.Linked (pre ++ x :: y :: z :: post))
    (nodupNext : (pre ++ x :: y :: z :: post).dropLast.Nodup)
    (nodupPrev : (pre ++ x :: y :: z :: post).tail.Nodup)
    (around : n'.next x = z ∧ n'.prev z = x)
    (next : ∀ w ∈ (pre ++ x :: y :: z :: post).dropLast, w ≠ x → w ≠ y → n'.next w = n.next w)
    (prev : ∀ w ∈ (pre ++ x :: y :: z :: post).tail, w ≠ z → w ≠ y → n'.prev w = n.prev w) :
    n'.Linked (pre ++ x :: z :: post) := by
  have whole : n.Linked (pre ++ x :: ([y] ++ z :: post)) := linked
  obtain ⟨left, right⟩ := whole.halves nodupNext nodupPrev
    (fun w mem ne apart => next w mem ne (by simpa using apart))
    fun w mem ne apart => prev w mem ne (by simpa using apart)
  exact linked_append.mpr ⟨left, around, right⟩

/-! Circular lists with a fixed head: where a node goes in and what stands around it. -/

section Head
variable {h : α} {r : List α}

/-- What stands before the place behind `l` in the circular list with head `h`. -/
def before (h : α) (l : List α) : α := l.getLast?.getD h

/-- What stands after the place in front of `r`. -/
def after (h : α) (r : List α) : α := r.head?.getD h

@[simp] theorem before_nil : before h [] = h := rfl

@[simp] theorem before_concat : before h (l ++ [x]) = x := by simp [before]

@[simp] theorem after_nil : after h [] = h := rfl

@[simp] theorem after_cons : after h (x :: r) = x := rfl

theorem before_mem : before h l ∈ h :: l := by
  induction l using reverseRecOn with
  | nil => simp
  | append_singleton l x _ => simp

theorem after_mem : after h r ∈ h :: r := by
  cases r with
  | nil => simp
  | cons x r => simp

theorem seg_iff_linked : n.Seg x l y ↔ n.Linked (x :: (l ++ [y])) := by
  induction l generalizing x with
  | nil => simp [Seg, Linked]
  | cons z l ih => simp only [Seg, cons_append, Linked, ih]

/-- The closed path around the place between `l` and `r`. -/
theorem closed_split (h : α) (l r : List α) : ∃ pre post, h :: ((l ++ r) ++ [h]) = pre ++ before h l :: after h r :: post ∧
    ∀ x, h :: ((l ++ x :: r) ++ [h]) = pre ++ before h l :: x :: after h r :: post := by
  obtain ⟨pre, front⟩ : ∃ pre, h :: l = pre ++ [before h l] := by
    induction l using reverseRecOn with
    | nil => exact ⟨[], rfl⟩
    | append_singleton l x _ => exact ⟨h :: l, by simp⟩
  obtain ⟨post, back⟩ : ∃ post, r ++ [h] = after h r :: post := by
    cases r with
    | nil => exact ⟨[], rfl⟩
    | cons x r => exact ⟨r ++ [h], rfl⟩
  refine ⟨pre, post, ?_, fun x => ?_⟩
  · rw [append_assoc, back, ← cons_append, front]
    simp
  · rw [append_assoc, cons_append, back, ← cons_append, front]
    simp

/-- The pointers across the place between `l` and `r`. -/
theorem IsRing.between (ring : n.IsRing (h :: (l ++ r))) :
    n.next (before h l) = after h r ∧ n.prev (after h r) = before h l := by
  obtain ⟨pre, post, shape, _⟩ := closed_split h l r
  have linked : n.Linked (h :: ((l ++ r) ++ [h])) := seg_iff_linked.mp ring
  rw [shape] at linked
  exact linked.at_pair

/-- The pointers of an element and of its neighbours. -/
theorem IsRing.around (ring : n.IsRing (h :: (l ++ x :: r))) :
    (n.next x = after h r ∧ n.prev x = before h l) ∧ n.next (before h l) = x ∧ n.prev (after h r) = x := by
  have front : n.next (before h l) = after h (x :: r) ∧ n.prev (after h (x :: r)) = before h l := ring.between
  have regroup : h :: (l ++ x :: r) = h :: ((l ++ [x]) ++ r) := by simp
  have back : n.next (before h (l ++ [x])) = after h r ∧ n.prev (after h r) = before h (l ++ [x]) :=
    IsRing.between (regroup ▸ ring)
  rw [before_concat] at back
  rw [after_cons] at front
  exact ⟨⟨back.1, front.2⟩, front.1, back.2⟩

/-- An element other than the head does not stand before itself. -/
theorem IsRing.prev_ne (ring : n.IsRing (h :: (l ++ x :: r))) (nodup : (h :: (l ++ x :: r)).Nodup) : n.prev x ≠ x := by
  rw [ring.around.1.2]
  intro same
  have front := before_mem (h := h) (l := l)
  rw [same] at front
  simp only [nodup_cons, nodup_append, mem_append, mem_cons] at nodup front
  rcases front with head | earlier
  · exact nodup.1 (.inr (.inl head.symm))
  · exact nodup.2.2.2 _ earlier _ (.inl rfl) rfl

/-- Nodes of a closed path, once around. -/
theorem closed_nodup (nodup : (h :: l).Nodup) : (h :: (l ++ [h])).dropLast.Nodup ∧ (h :: (l ++ [h])).tail.Nodup := by
  constructor
  · rw [← cons_append, dropLast_concat]
    exact nodup
  · show (l ++ [h]).Nodup
    rw [← concat_eq_append]
    exact (nodup_cons.mp nodup).2.concat (nodup_cons.mp nodup).1

theorem mem_closed_dropLast : y ∈ (h :: (l ++ [h])).dropLast ↔ y ∈ h :: l := by
  rw [← cons_append, dropLast_concat]

theorem mem_closed_tail : y ∈ (h :: (l ++ [h])).tail ↔ y ∈ h :: l := by
  simp only [tail_cons, mem_append, mem_cons, not_mem_nil, or_false]
  exact or_comm

/-- A node that goes in between `l` and `r`. -/
theorem IsRing.inserted (ring : n.IsRing (h :: (l ++ r))) (nodup : (h :: (l ++ r)).Nodup)
    (there : n'.next (before h l) = x ∧ n'.prev x = before h l) (back : n'.next x = after h r ∧ n'.prev (after h r) = x)
    (next : ∀ w ∈ h :: (l ++ r), w ≠ before h l → n'.next w = n.next w)
    (prev : ∀ w ∈ h :: (l ++ r), w ≠ after h r → n'.prev w = n.prev w) : n'.IsRing (h :: (l ++ x :: r)) := by
  obtain ⟨pre, post, shape, longer⟩ := closed_split h l r
  obtain ⟨once, once'⟩ := closed_nodup nodup
  have linked : n.Linked (h :: ((l ++ r) ++ [h])) := seg_iff_linked.mp ring
  have next' : ∀ w ∈ (h :: ((l ++ r) ++ [h])).dropLast, w ≠ before h l → n'.next w = n.next w :=
    fun w mem => next w (mem_closed_dropLast.mp mem)
  have prev' : ∀ w ∈ (h :: ((l ++ r) ++ [h])).tail, w ≠ after h r → n'.prev w = n.prev w :=
    fun w mem => prev w (mem_closed_tail.mp mem)
  refine seg_iff_linked.mpr ?_
  rw [shape] at linked once once' next' prev'
  rw [longer]
  exact linked.link once once' there back next' prev'

/-- A node that goes out from between `l` and `r`. -/
theorem IsRing.removed (ring : n.IsRing (h :: (l ++ x :: r))) (nodup : (h :: (l ++ x :: r)).Nodup)
    (around : n'.next (before h l) = after h r ∧ n'.prev (after h r) = before h l)
    (next : ∀ w ∈ h :: (l ++ x :: r), w ≠ before h l → w ≠ x → n'.next w = n.next w)
    (prev : ∀ w ∈ h :: (l ++ x :: r), w ≠ after h r → w ≠ x → n'.prev w = n.prev w) : n'.IsRing (h :: (l ++ r)) := by
  obtain ⟨pre, post, shape, longer⟩ := closed_split h l r
  obtain ⟨once, once'⟩ := closed_nodup nodup
  have linked : n.Linked (h :: ((l ++ x :: r) ++ [h])) := seg_iff_linked.mp ring
  have next' : ∀ w ∈ (h :: ((l ++ x :: r) ++ [h])).dropLast, w ≠ before h l → w ≠ x → n'.next w = n.next w :=
    fun w mem => next w (mem_closed_dropLast.mp mem)
  have prev' : ∀ w ∈ (h :: ((l ++ x :: r) ++ [h])).tail, w ≠ after h r → w ≠ x → n'.prev w = n.prev w :=
    fun w mem => prev w (mem_closed_tail.mp mem)
  refine seg_iff_linked.mpr ?_
  rw [longer] at linked once once' next' prev'
  rw [shape]
  exact linked.unlink once once' around next' prev'

section Update
variable [DecidableEq α]

/-- The neighbours of `x` pointed at each other. -/
def bridge (n : Nodes α) (x : α) : Nodes α where
  next := Function.update n.next (n.prev x) (n.next x)
  prev := Function.update n.prev (n.next x) (n.prev x)

theorem IsRing.bridge (ring : n.IsRing (h :: (l ++ x :: r))) (nodup : (h :: (l ++ x :: r)).Nodup) :
    (n.bridge x).IsRing (h :: (l ++ r)) := by
  obtain ⟨⟨next, prev⟩, _⟩ := ring.around
  refine ring.removed nodup ?_ ?_ ?_
  · simp [Nodes.bridge, next, prev]
  · intro w _ other _
    simp [Nodes.bridge, prev, other]
  · intro w _ other _
    simp [Nodes.bridge, next, other]

/-- Off the circular list of `x` nothing is rewritten. -/
theorem IsRing.bridge_off (ring : n.IsRing l) (mem : x ∈ l) (off : y ∉ l) :
    (n.bridge x).next y = n.next y ∧ (n.bridge x).prev y = n.prev y := by
  have notPrev : y ≠ n.prev x := fun same => off (same ▸ ring.prev_mem mem)
  have notNext : y ≠ n.next x := fun same => off (same ▸ ring.next_mem mem)
  simp [Nodes.bridge, notPrev, notNext]

theorem IsRing.insert_at (ring : n.IsRing (h :: (l ++ r))) (nodup : (h :: (l ++ r)).Nodup)
    (fresh : x ∉ h :: (l ++ r)) : (n.insert (after h r) x).IsRing (h :: (l ++ x :: r)) := by
  have inside : after h r ∈ h :: (l ++ r) := by
    have mem := after_mem (h := h) (r := r)
    simp only [mem_cons, mem_append] at mem ⊢
    tauto
  have behind : before h l ∈ h :: (l ++ r) := by
    have mem := before_mem (h := h) (l := l)
    simp only [mem_cons, mem_append] at mem ⊢
    tauto
  have notAfter : x ≠ after h r := fun same => fresh (same ▸ inside)
  have notBefore : before h l ≠ x := fun same => fresh (same ▸ behind)
  have back := ring.between.2
  refine ring.inserted nodup ?_ ?_ ?_ ?_
  · simp [Nodes.insert, back, notAfter, notAfter.symm]
  · simp [Nodes.insert, back, notAfter.symm, notBefore.symm]
  · intro w mem other
    have notX : w ≠ x := fun same => fresh (same ▸ mem)
    exact insert_next_of_ne notAfter notX (back ▸ other)
  · intro w mem other
    have notX : w ≠ x := fun same => fresh (same ▸ mem)
    exact insert_prev_of_ne notX other

/-- Off the circular list nothing but the new node is rewritten. -/
theorem IsRing.insert_off (ring : n.IsRing l) (mem : z ∈ l) (fresh : x ∉ l) (off : y ∉ l) (other : y ≠ x) :
    (n.insert z x).next y = n.next y ∧ (n.insert z x).prev y = n.prev y := by
  have notPrev : y ≠ n.prev z := fun same => off (same ▸ ring.prev_mem mem)
  have notSelf : y ≠ z := fun same => off (same ▸ mem)
  have apart : x ≠ z := fun same => fresh (same ▸ mem)
  exact ⟨insert_next_of_ne apart other notPrev, insert_prev_of_ne other notSelf⟩

end Update

end Head

end Ring.Nodes
