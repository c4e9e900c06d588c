import Ecos.Redboot.FisChunks

namespace Ecos.Redboot.FisChunks
open List Nat Layout Span
variable {l : Layout} {img : Image} {chunks pre post : List Span} {c d : Span} {F F' : Nat → Prop} {a : Nat}

theorem process_none (none' : ∀ c ∈ chunks, ¬c.Has img.base) : process img chunks = chunks := by
  induction chunks with
  | nil => rfl
  | cons c chunks ih =>
    rw [process, if_neg (show ¬(c.start ≤ img.base ∧ img.base ≤ c.last) from none' c (mem_cons_self ..)),
      ih fun d mem => none' d (mem_cons_of_mem _ mem)]

theorem process_some (none' : ∀ c ∈ pre, ¬c.Has img.base) (has : c.Has img.base) :
    process img (pre ++ c :: post) = pre ++ trim img c ++ post := by
  induction pre with
  | nil => rw [nil_append, process, if_pos (show c.start ≤ img.base ∧ img.base ≤ c.last from has), nil_append]
  | cons d pre ih =>
    rw [cons_append, process, if_neg
      (show ¬(d.start ≤ img.base ∧ img.base ≤ d.last) from none' d (mem_cons_self ..)),
      ih fun e mem => none' e (mem_cons_of_mem _ mem), cons_append, cons_append]

theorem notHas (spans : Spans F (pre ++ c :: post)) (has : c.Has a) : ∀ d ∈ pre ++ post, ¬d.Has a := by
  intro d mem hasToo
  have isC : c ∈ pre ++ c :: post := mem_append_right _ (mem_cons_self ..)
  have proper := spans.proper c isC
  have apart := spans.apart
  rw [pairwise_append, pairwise_cons] at apart
  rcases mem_append.mp mem with before | after
  · obtain rfl := spans.same isC (mem_append_left _ before) has hasToo
    have := apart.2.2 c before c (mem_cons_self ..)
    omega
  · obtain rfl := spans.same isC (mem_append_right _ (mem_cons_of_mem _ after)) has hasToo
    have := apart.2.1.1 c after
    omega

theorem trim_cases (has : c.Has img.base) (some' : 0 < img.size) (reach : img.base + img.size ≤ c.last + 1)
    (top : c.last < 2 ^ 32) :
    (img.base = c.start ∧ img.base + img.size = 2 ^ 32 ∧ trim img c = [⟨0, c.last⟩]) ∨
    (img.base = c.start ∧ img.base + img.size = c.last ∧ trim img c = []) ∨
    (img.base = c.start ∧ img.base + img.size ≠ 2 ^ 32 ∧ img.base + img.size = c.last + 1 ∧ trim img c = []) ∨
    (img.base = c.start ∧ img.base + img.size < c.last ∧ trim img c = [⟨img.base + img.size, c.last⟩]) ∨
    (img.base ≠ c.start ∧ img.base + img.size = c.last + 1 ∧ trim img c = [⟨c.start, img.base - 1⟩]) ∨
    (img.base ≠ c.start ∧ img.base + img.size ≤ c.last ∧
      trim img c = [⟨c.start, img.base - 1⟩, ⟨img.base + img.size, c.last⟩]) := by
  obtain ⟨low, high⟩ := has
  rw [trim]
  by_cases atStart : img.base = c.start
  · rw [if_pos atStart, ← atStart]
    by_cases whole : img.base + img.size = 2 ^ 32
    · rw [whole, mod_self]
      exact .inl ⟨rfl, rfl, if_neg (by omega)⟩
    · rw [mod_eq_of_lt (show img.base + img.size < 2 ^ 32 by omega)]
      by_cases rest : img.base + img.size < c.last
      · exact .inr (.inr (.inr (.inl ⟨rfl, rest, if_neg (by omega)⟩)))
      · by_cases byte : img.base + img.size = c.last
        · exact .inr (.inl ⟨rfl, byte, if_pos (by omega)⟩)
        · exact .inr (.inr (.inl ⟨rfl, whole, by omega, if_pos (by omega)⟩))
  · rw [if_neg atStart, show img.base + img.size + 2 ^ 32 - 1 = img.base + img.size - 1 + 2 ^ 32 by omega,
    add_mod_right,
      mod_eq_of_lt (show img.base + img.size - 1 < 2 ^ 32 by omega)]
    refine .inr (.inr (.inr (.inr ?_)))
    by_cases rest : img.base + img.size = c.last + 1
    · exact .inl ⟨atStart, rest, if_pos (by omega)⟩
    · refine .inr ⟨atStart, by omega, ?_⟩
      rw [if_neg (by omega), mod_eq_of_lt (by omega)]

/-- The table after an image that starts in a chunk is right, or not; and it has become longer by a split only. -/
theorem process_spec (spans : Spans F chunks) (some' : 0 < img.size) (bound : ∀ a, F a → a < 2 ^ 32)
    (free : F img.base) (all : ∀ i < img.size, F (img.base + i)) (taken : ∀ a, F' a ↔ F a ∧ ¬img.Has a) :
    (Spans F' (process img chunks) ↔ (¬Inner F img.base → img.base + img.size ≠ 2 ^ 32) ∧
      (¬Inner F img.base → F (img.base + img.size) → F (img.base + img.size + 1))) ∧
    (chunks.length < (process img chunks).length ↔ Inner F img.base ∧ F (img.base + img.size)) ∧
    (process img chunks).length ≤ chunks.length + 1 := by
  obtain ⟨c₀, member₀, has₀⟩ := (spans.holds _).mp free
  obtain ⟨c, found⟩ : ∃ c, chunks.find? (fun c => decide (c.Has img.base)) = some c :=
    Option.isSome_iff_exists.mp (find?_isSome.mpr ⟨c₀, member₀, by simpa using has₀⟩)
  obtain ⟨has, pre, post, rfl, none'⟩ := find?_eq_some_iff_append.mp found
  replace has : c.Has img.base := by simpa using has
  replace none' : ∀ d ∈ pre, ¬d.Has img.base := fun d mem => by simpa using none' d mem
  have isC : c ∈ pre ++ c :: post := mem_append_right _ (mem_cons_self ..)
  have inner := spans.inner_iff isC has
  have last := spans.within isC has all (img.size - 1) (by omega)
  have next := spans.next_iff isC last
  rw [show img.base + (img.size - 1) + 1 = img.base + img.size by omega] at next
  have inPiece : ∀ {a}, c.Has a → F a := fun has => (spans.holds _).mpr ⟨c, isC, has⟩
  have top := bound c.last (inPiece ⟨spans.proper c isC, le_rfl⟩)
  have reach := last.2
  have replaced : ∀ {cs : List Span}, (∀ d ∈ cs, c.start ≤ d.start ∧ d.start ≤ d.last ∧ d.last ≤ c.last) →
      cs.Pairwise (fun c d => c.last + 1 < d.start) → (∀ a, c.Has a → ((∃ d ∈ cs, d.Has a) ↔ ¬img.Has a)) →
      Spans F' (pre ++ cs ++ post) := fun inside apart holds => spans.replace inside apart fun a => by
    rw [taken]
    by_cases hasA : c.Has a
    · rw [holds a hasA]
      exact ⟨fun both => .inl both.2, fun either => ⟨inPiece hasA, either.elim id fun both => absurd hasA both.2⟩⟩
    · have outside : ¬img.Has a := fun inside => hasA ⟨le_trans has.1 inside.1, by have := inside.2; omega⟩
      refine ⟨fun both => .inr ⟨both.1, hasA⟩, fun either => ?_⟩
      rcases either with ⟨d, mem, hasD⟩ | both
      · have := inside d mem
        exact absurd ⟨le_trans this.1 hasD.1, le_trans hasD.2 this.2.2⟩ hasA
      · exact ⟨both.1, outside⟩
  rw [process_some none' has]
  have low := has.1
  have high := has.2
  rcases trim_cases has some' (by omega) top with ⟨atStart, ends, cut⟩ | ⟨atStart, ends, cut⟩ | ⟨atStart, ends',
    ends, cut⟩ |
    ⟨atStart, ends, cut⟩ | ⟨atStart, ends, cut⟩ | ⟨atStart, ends, cut⟩
  · have wrong : ¬Spans F' (pre ++ trim img c ++ post) := fun spans' => by
      have has' : F' img.base := (spans'.holds _).mpr ⟨⟨0, c.last⟩, by simp [cut], zero_le _, high⟩
      exact ((taken _).mp has').2 ⟨le_rfl, by omega⟩
    refine ⟨iff_of_false wrong fun both => both.1 (mt inner.mp (not_not.mpr atStart)) ends,
      iff_of_false ?_ fun both => inner.mp both.1 atStart, ?_⟩
    · simp [cut]
    · simp [cut]
  · have wrong : ¬Spans F' (pre ++ trim img c ++ post) := fun spans' => by
      obtain ⟨d, mem, hasD⟩ := (spans'.holds c.last).mp
        ((taken _).mpr ⟨inPiece ⟨by omega, le_rfl⟩, fun inside => by have := inside.2; omega⟩)
      rw [cut, append_nil] at mem
      exact notHas spans ⟨by omega, le_rfl⟩ d mem hasD
    have beyond : ¬F (img.base + img.size + 1) := by
      rw [ends]
      exact fun isIn => (spans.next_iff isC ⟨by omega, le_rfl⟩).mp isIn rfl
    refine ⟨iff_of_false wrong fun both => beyond (both.2 (mt inner.mp (not_not.mpr atStart)) (next.mpr (by omega))),
      iff_of_false ?_ fun both => inner.mp both.1 atStart, ?_⟩
    · simp [cut]
    · simp [cut]
      omega
  · have full : ¬F (img.base + img.size) := fun isIn => next.mp isIn (by omega)
    refine ⟨iff_of_true (replaced ?_ ?_ fun a hasA => ?_) ⟨fun _ => ends', fun _ isIn => absurd isIn full⟩,
      iff_of_false ?_ fun both => full both.2, ?_⟩
    · simp [cut]
    · simp [cut]
    · have := hasA.1
      have := hasA.2
      simp only [cut, not_mem_nil, false_and, exists_false, Image.Has, false_iff, not_not]
      omega
    · simp [cut]
    · simp [cut]
      omega
  · have more : F (img.base + img.size + 1) := inPiece ⟨by omega, by omega⟩
    refine ⟨iff_of_true (replaced ?_ ?_ fun a hasA => ?_) ⟨fun _ => by omega, fun _ _ => more⟩,
      iff_of_false ?_ fun both => inner.mp both.1 atStart, ?_⟩
    · simp [cut]
      omega
    · simp [cut]
    · have := hasA.1
      have := hasA.2
      simp only [cut, mem_singleton, exists_eq_left, Has, Image.Has]
      omega
    · simp [cut]
    · simp [cut]
  · have full : ¬F (img.base + img.size) := fun isIn => next.mp isIn (by omega)
    have isInner := inner.mpr atStart
    refine ⟨iff_of_true (replaced ?_ ?_ fun a hasA => ?_) ⟨absurd isInner, absurd isInner⟩,
      iff_of_false ?_ fun both => full both.2, ?_⟩
    · simp [cut]
      omega
    · simp [cut]
    · have := hasA.1
      have := hasA.2
      simp only [cut, mem_singleton, exists_eq_left, Has, Image.Has]
      omega
    · simp [cut]
    · simp [cut]
  · have isInner := inner.mpr atStart
    have more : F (img.base + img.size) := next.mpr (by omega)
    refine ⟨iff_of_true (replaced ?_ ?_ fun a hasA => ?_) ⟨absurd isInner, absurd isInner⟩,
      iff_of_true ?_ ⟨isInner, more⟩, ?_⟩
    · simp [cut]
      omega
    · simp [cut]
      omega
    · have := hasA.1
      have := hasA.2
      simp only [cut, mem_cons, not_mem_nil, or_false, exists_eq_or_imp, exists_eq_left, Has, Image.Has]
      omega
    · simp [cut]
    · simp [cut]
      omega

variable {images before after : List Image} {S S' : Nat →
  Prop} {x y : Info × Nat} {xs : List (Info × Nat)}

theorem Layout.indexed (l : Layout) : l.devs.zipIdx.Pairwise fun x y => x.1.last < y.1.start ∧ x.2 < y.2 := by
  have ascending := l.ascending
  rw [← zipIdx_map_fst 0 l.devs, pairwise_map] at ascending
  have counted : (l.devs.zipIdx.map Prod.snd).Pairwise (· < ·) := by
    rw [zipIdx_map_snd]
    exact pairwise_lt_range' ..
  exact ascending.and (pairwise_map.mp counted)

theorem Layout.isBase_unique (before : x.1.last < y.1.start ∧ x.2 < y.2) (isBase : l.IsBase x) : ¬l.IsBase y := by
  have := x.1.proper
  rintro (start | ⟨start, zero⟩)
  · rcases isBase with start' | ⟨start', _⟩
    · obtain same := Option.some.inj (start.symm.trans start')
      omega
    · exact absurd (start.symm.trans start') (by simp)
  · omega

theorem Layout.flash_lt (flash : l.Flash a) : a < 2 ^ 32 := by
  obtain ⟨x, _, _, _, last⟩ := flash
  exact lt_of_le_of_lt last x.1.top

theorem Layout.baseArea_flash (area : l.BaseArea a) : l.Flash a := by
  obtain ⟨x, mem, used, isBase, low, high⟩ := area
  have := l.within x mem isBase
  exact ⟨x, mem, used, low, by omega⟩

theorem Layout.free_append : l.Free (before ++ [img]) a ↔ l.Free before a ∧ ¬img.Has a := by
  simp only [Free, mem_append, mem_singleton, or_imp, forall_and, forall_eq, and_assoc]

theorem Layout.above (first : ∀ x ∈ (l.devs.zipIdx.filter fun x => !l.reserved x.1.start).head?, l.IsBase x)
    (flash : l.Flash a) (notArea : ¬l.BaseArea a) {b : Nat} (later : a ≤ b) : ¬l.BaseArea b := by
  rintro ⟨x, mem, used, isBase, low, high⟩
  obtain ⟨y, mem', used', low', high'⟩ := flash
  have within := l.within x mem isBase
  have sorted := l.indexed.filter fun x => !l.reserved x.1.start
  have isX : x ∈ l.devs.zipIdx.filter fun x => !l.reserved x.1.start := mem_filter.mpr ⟨mem, by simp [used]⟩
  have isY : y ∈ l.devs.zipIdx.filter fun x => !l.reserved x.1.start := mem_filter.mpr ⟨mem', by simp [used']⟩
  generalize l.devs.zipIdx.filter (fun x => !l.reserved x.1.start) = used at first sorted isX isY
  cases used with
  | nil => exact absurd isX not_mem_nil
  | cons z rest =>
    have isBase' := first z rfl
    rw [pairwise_cons] at sorted
    rcases mem_cons.mp isX with rfl | isX
    · rcases mem_cons.mp isY with rfl | isY
      · exact notArea ⟨y, mem', used', isBase, low', by omega⟩
      · have := sorted.1 y isY
        omega
    · exact isBase_unique (sorted.1 x isX) isBase' isBase

theorem Proper.free (proper : Proper l images) (split : images = before ++ img :: after)
    (first : ∀ x ∈ (l.devs.zipIdx.filter fun x => !l.reserved x.1.start).head?, l.IsBase x)
    (free : l.Free before img.base) (inside : img.Has a) : l.Free before a := by
  subst split
  refine ⟨proper.inside img (by simp) a inside, l.above first free.1 free.2.1 inside.1, fun i mem has => ?_⟩
  have apart := (pairwise_append.mp proper.apart).2.2 i mem img (mem_cons_self ..)
  have := has.1
  have := has.2
  have := inside.1
  have := inside.2
  have start := free.2.2 i mem
  omega

/-- The places of the devices in use. -/
def Layout.Part (l : Layout) (xs : List (Info × Nat)) (a : Nat) : Prop :=
  ∃ x ∈ xs, l.reserved x.1.start = false ∧ x.1.start ≤ a ∧ a ≤ x.1.last

end Ecos.Redboot.FisChunks
