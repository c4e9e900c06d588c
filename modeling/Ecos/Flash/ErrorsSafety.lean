import Ecos.Flash.Errors

namespace Ecos.Flash.Errors
open List
variable {devs : List Dev} {drv : Driver} {given stops : Bool} {d e : Dev} {op : Op}
  {base len addr count block offset fuel a : Nat}
  {stat : Int} {turns : List Turn} {ps before after : List Part} {p q : Part} {fits : Bool} {t : Turn}

theorem attempt_fine (fine : ∀ t ∈ turns, t.stat = cygFlashErrOk) :
    attempt given stops turns cygFlashErrOk = ⟨cygFlashErrOk, none, turns⟩ := by
  induction turns with
  | nil => rfl
  | cons t turns ih =>
    have here := fine t (mem_cons_self ..)
    rw [attempt, if_neg (by simp [here]), here, ih fun u member => fine u (mem_cons_of_mem t member)]

theorem attempt_stops {before after : List Turn} (fine : ∀ t ∈ before, t.stat = cygFlashErrOk)
    (failed : t.stat ≠ cygFlashErrOk) :
    attempt given true (before ++ t :: after) stat = ⟨t.stat, if given then some t.addr else none, before ++ [t]⟩ := by
  induction before generalizing stat with
  | nil => rw [nil_append, attempt, if_pos ⟨failed, rfl⟩, nil_append]
  | cons u before ih =>
    have here := fine u (mem_cons_self ..)
    rw [cons_append, attempt, if_neg (by simp [here]), ih fun w member => fine w (mem_cons_of_mem u member)]
    rfl

theorem attempt_goes_on : attempt given false turns stat = ⟨(turns.getLast?.map Turn.stat).getD stat, none, turns⟩ := by
  induction turns generalizing stat with
  | nil => rfl
  | cons t turns ih =>
    rw [attempt, if_neg (by simp), ih, getLast?_cons]
    cases turns.getLast? <;> rfl

theorem first_failure {α : Type*} {P : α → Prop} {l : List α} (some' : ∃ x ∈ l, ¬P x) :
    ∃ before x after, l = before ++ x :: after ∧ (∀ y ∈ before, P y) ∧ ¬P x := by
  induction l with
  | nil => simp at some'
  | cons y l ih =>
    by_cases here : P y
    · obtain ⟨x, member, failed⟩ := some'
      have later : x ∈ l := by
        rcases mem_cons.mp member with rfl | later
        · exact absurd here failed
        · exact later
      obtain ⟨before, x, after, rfl, fine, failed⟩ := ih ⟨x, later, failed⟩
      refine ⟨y :: before, x, after, rfl, fun z member => ?_, failed⟩
      rcases mem_cons.mp member with rfl | further
      · exact here
      · exact fine z further
    · exact ⟨[], y, l, rfl, by simp, here⟩

theorem first_failure_unique {α : Type*} {P : α → Prop} {x x' : α} {before before' after after' : List α}
    (same : before ++ x :: after = before' ++ x' :: after') (fine : ∀ y ∈ before, P y) (fine' : ∀ y ∈ before', P y)
    (failed : ¬P x) (failed' : ¬P x') : before = before' ∧ x = x' ∧ after = after' := by
  induction before generalizing before' with
  | nil =>
    cases before' with
    | nil => simpa using same
    | cons y before' =>
      obtain ⟨rfl, _⟩ := cons.inj same
      exact absurd (fine' _ (mem_cons_self ..)) failed
  | cons y before ih =>
    cases before' with
    | nil =>
      obtain ⟨rfl, _⟩ := cons.inj same
      exact absurd (fine _ (mem_cons_self ..)) failed'
    | cons w before' =>
      obtain ⟨rfl, rest⟩ := cons.inj same
      obtain ⟨rfl, both⟩ := ih rest (fun z member => fine z (mem_cons_of_mem _ member))
        fun z member => fine' z (mem_cons_of_mem _ member)
      exact ⟨rfl, both⟩

theorem go_clean (clean : ∀ q ∈ before, q.Clean drv) : go drv given (before ++ ps) fits =
    ⟨(go drv given ps fits).stat, (go drv given ps fits).err, before.flatMap (·.turns drv) ++
      (go drv given ps fits).turns⟩ := by
  induction before with
  | nil => rfl
  | cons p before ih =>
    obtain ⟨can, fine⟩ := clean p (mem_cons_self ..)
    rw [cons_append, go, if_pos can, attempt_fine fine, ih fun q member => clean q (mem_cons_of_mem p member)]
    simp

/-- Where something fails, the report is right if and only if the failure is not overwritten. -/
theorem go_failed (clean : ∀ q ∈ before, q.Clean drv) (can : drv.can p.op p.dev = true) (failed : ¬p.Clean drv) :
    let l := go drv given (before ++ p :: after) fits
    (∃ t ∈ l.turns, t.stat ≠ cygFlashErrOk) ∧
      (p.Keeps drv given ↔ l.stat ≠ cygFlashErrOk ∧ Reported given l) := by
  have fails : ∃ t ∈ p.turns drv, t.stat ≠ cygFlashErrOk := by
    by_contra none'
    exact failed ⟨can, fun t member => by_contra fun bad => none' ⟨t, member, bad⟩⟩
  have earlier : ∀ t ∈ before.flatMap (·.turns drv), t.stat = cygFlashErrOk := fun t member => by
    obtain ⟨q, there, inside⟩ := mem_flatMap.mp member
    exact (clean q there).2 t inside
  obtain ⟨front, t, rest, split, fine, bad⟩ := first_failure fails
  have front' : ∀ u ∈ before.flatMap (·.turns drv) ++ front, u.stat = cygFlashErrOk := fun u member => by
    rcases mem_append.mp member with far | near
    · exact earlier u far
    · exact fine u near
  have keepsIff : p.Keeps drv given ↔ p.op.stops given = true ∨ rest = [] := by
    have stop : (p.op = .erase ∨ p.op = .program ∨ given = true) ↔ p.op.stops given = true := by simp [Op.stops,
      or_assoc]
    have last : (∀ u ∈ (p.turns drv).dropLast, u.stat = cygFlashErrOk) ↔ rest = [] := by
      rw [split]
      constructor
      · intro all
        by_contra more
        refine bad (all t ?_)
        rw [dropLast_append_of_ne_nil (by simp)]
        obtain ⟨w, rest, rfl⟩ := exists_cons_of_ne_nil more
        simp
      · rintro rfl
        simpa using fine
    rw [Part.Keeps, ← last, ← stop]
    tauto
  rw [go_clean clean, keepsIff, go, if_pos can]
  cases stopping : p.op.stops given with
  | true =>
    rw [split, attempt_stops fine bad]
    simp only [ne_eq, bad, not_false_eq_true, if_true, true_or, true_iff, true_and]
    refine ⟨⟨t, by simp, bad⟩, ?_⟩
    intro front₂ t₂ rest₂ same fine₂ bad₂
    rw [← append_assoc] at same
    obtain ⟨_, rfl, rfl⟩ := first_failure_unique same front' fine₂ bad bad₂
    exact ⟨rfl, rfl, rfl⟩
  | false =>
    have noAddress : given = false := by
      have := stopping
      simp only [Op.stops, Bool.or_eq_false_iff] at this
      exact this.2
    rw [attempt_goes_on, split]
    by_cases alone : rest = []
    · subst alone
      simp only [getLast?_append, getLast?_singleton, Option.some_or, Option.map_some, Option.getD_some,
        ne_eq, bad,
        not_false_eq_true, if_true, Bool.false_eq_true, false_or, true_iff, true_and]
      refine ⟨⟨t, by simp, bad⟩, ?_⟩
      intro front₂ t₂ rest₂ same fine₂ bad₂
      rw [← append_assoc] at same
      obtain ⟨_, rfl, rfl⟩ := first_failure_unique same front' fine₂ bad bad₂
      exact ⟨rfl, by simp [noAddress], rfl⟩
    · simp only [Bool.false_eq_true, alone, or_self, false_iff]
      -- what is done after the failure is in the turns, whatever happens behind this part
      obtain ⟨more, turnsAre⟩ : ∃ more, before.flatMap (·.turns drv) ++ (if
          (((front ++ t :: rest).getLast?.map Turn.stat).getD cygFlashErrOk ≠ cygFlashErrOk) then
            (⟨((front ++ t :: rest).getLast?.map Turn.stat).getD cygFlashErrOk, none, front ++ t :: rest⟩ : Loop)
          else ⟨(go drv given after fits).stat, (go drv given after fits).err,
            front ++ t :: rest ++ (go drv given after fits).turns⟩).turns =
          (before.flatMap (·.turns drv) ++ front) ++ t :: (rest ++ more) := by
        split
        · exact ⟨[], by simp⟩
        · exact ⟨(go drv given after fits).turns, by simp⟩
      refine ⟨⟨t, by rw [turnsAre]; simp, bad⟩, ?_⟩
      rintro ⟨_, reported⟩
      have := (reported _ t _ turnsAre front' bad).2.2
      simp [alone] at this

theorem chunkLoop_tiles (low : d.start ≤ addr) (fits : addr + count ≤ d.last + 1)
    (inside : 0 < count → offset < d.blockSize addr) (enough : count ≤ fuel) :
    Tiles Prod.fst Prod.snd addr (d.chunkLoop fuel addr count offset) (addr + count) := by
  induction fuel generalizing addr count offset with
  | zero =>
    obtain rfl : count = 0 := by omega
    exact rfl
  | succ fuel ih =>
    by_cases nothing : count = 0
    · subst nothing
      exact rfl
    rw [Dev.chunkLoop, if_neg nothing]
    set this := if count > d.blockSize addr - offset then d.blockSize addr - offset else count with this_def
    have bounds : 0 < this ∧ this ≤ count := by split at this_def <;> omega
    have positive : 0 < count - this → 0 < d.blockSize (addr + this) := fun more => by
      obtain ⟨b, member, begins, ends⟩ := @Dev.block_of (addr + this) d (by omega) (by omega)
      rw [Dev.blockSize_eq member begins ends]
      exact (d.tiles.within member).2.1
    have rest := ih (show d.start ≤ addr + this by omega) (show addr + this +
      (count - this) ≤ d.last + 1 by omega) positive (by omega)
    refine ⟨rfl, bounds.1, ?_⟩
    rwa [show addr + count = addr + this + (count - this) by omega]

theorem chunks_tile (low : d.start ≤ base) (high : base ≤ d.last) (fits : base + count ≤ d.last + 1) :
    Tiles Prod.fst Prod.snd base (d.chunks base count) (base + count) := by
  obtain ⟨b, member, begins, ends⟩ := d.block_of low high
  have near := d.blockBegin_near member begins ends
  refine chunkLoop_tiles low fits (fun _ => ?_) le_rfl
  rw [d.blockSize_eq member begins ends]
  split <;> omega

theorem walk_eq (mem : Mem) : walk d fuel block count = (d.eraseLoop fuel mem block count).1 := by
  induction fuel generalizing block count mem with
  | zero => rfl
  | succ fuel ih =>
    rw [walk, Dev.eraseLoop]
    split
    · rfl
    · simp only [← ih]

theorem walk_within {x : Nat} (fits : block + count ≤ d.last + 1) (member : x ∈ walk d fuel block count) :
    block ≤ x ∧ x ≤ d.last := by
  induction fuel generalizing block count with
  | zero => simp [walk] at member
  | succ fuel ih =>
    rw [walk] at member
    split at member
    · simp at member
    · next more =>
      rcases mem_cons.mp member with rfl | later
      · omega
      · by_cases beyond : count < d.blockSize block
        · rw [if_pos beyond, Nat.sub_self] at later
          cases fuel <;> simp [walk] at later
        · rw [if_neg beyond] at later
          have := ih (by omega) later
          omega

namespace Part

/-- The first address of a part is in its device. -/
structure Proper (devs : List Dev) (p : Part) : Prop where
  member : p.dev ∈ devs
  low : p.dev.start ≤ p.base
  high : p.base ≤ p.dev.last

theorem Proper.places_within (proper : p.Proper devs) {x : Nat × Nat} (member : x ∈ p.places) :
    p.dev.start ≤ x.1 ∧ x.1 ≤ p.dev.last ∧ (p.op = .program ∨ p.op = .read → x.1 + x.2 ≤ p.dev.last + 1) := by
  obtain ⟨_, low, high⟩ := proper
  have begins := p.dev.blockBegin_le low
  have after : p.dev.start ≤ p.dev.blockBegin p.base := p.dev.blockBegin_ge
  have chunked : ∀ x ∈ p.dev.chunks p.base (min (p.base + p.len) (p.dev.last + 1) - p.base),
      p.dev.start ≤ x.1 ∧ x.1 ≤ p.dev.last ∧ x.1 + x.2 ≤ p.dev.last + 1 := fun x member => by
    have within := (chunks_tile low high (show p.base + (min (p.base + p.len)
      (p.dev.last + 1) - p.base) ≤ _ by omega)).within member
    omega
  cases op : p.op with
  | erase | lock | unlock =>
    simp only [places, op, mem_map] at member
    obtain ⟨a, walked, rfl⟩ := member
    have := walk_within (by omega) walked
    exact ⟨by dsimp only; omega, this.2, by simp⟩
  | program =>
    simp only [places, op] at member
    obtain ⟨left, right, ends⟩ := chunked x member
    exact ⟨left, right, fun _ => ends⟩
  | read =>
    simp only [places, op] at member
    split at member
    · obtain ⟨left, right, ends⟩ := chunked x member
      exact ⟨left, right, fun _ => ends⟩
    · obtain rfl := mem_singleton.mp member
      exact ⟨low, high, fun _ => by dsimp only; omega⟩

theorem Proper.covers_within (apart : Apart devs) (proper : p.Proper devs) (member : t ∈ p.turns drv)
    (covers : t.Covers devs a) :
    p.dev.start ≤ a ∧ a ≤ p.dev.last := by
  obtain ⟨x, there, rfl⟩ := mem_map.mp member
  obtain ⟨left, right, ends⟩ := proper.places_within there
  cases op : p.op with
  | program | read =>
    have bytes := ends (by simp [op])
    simp only [Turn.Covers, op] at covers
    omega
  | erase | lock | unlock =>
    simp only [Turn.Covers, op] at covers
    obtain ⟨e, eMember, b, block, here, low, high⟩ := covers
    have within := e.tiles.within block
    obtain rfl := @Apart.same _ _ _ x.1 apart eMember proper.member ⟨by omega, by omega⟩ ⟨left, right⟩
    omega

theorem Proper.covers (proper : p.Proper devs) (meets : p.Meets) (low : p.base ≤ a) (high : a < p.base + p.len)
    (inside : a ≤ p.dev.last) : ∃ t ∈ p.turns drv, t.Covers devs a := by
  have tiles := @chunks_tile p.dev p.base (min (p.base + p.len) (p.dev.last + 1) - p.base) proper.low proper.high
    (by omega)
  have byBlocks : p.op.byBlocks → ∃ t ∈ p.turns drv, t.Covers devs a := fun kind => by
    obtain ⟨b, block, bounds, x, there, within⟩ := (meets.resolve_left
      (by rcases kind with h | h | h <;> simp [h])).resolve_left
      (by rcases kind with h | h | h <;> simp [h]) a low high inside
    refine ⟨_, mem_map_of_mem there, ?_⟩
    have both : ∃ d ∈ devs, ∃ b ∈ d.blocks, (b.1 ≤ x.1 ∧ x.1 < b.1 + b.2) ∧ b.1 ≤ a ∧ a < b.1 + b.2 :=
      ⟨p.dev, proper.member, b, block, within, bounds⟩
    rcases kind with h | h | h <;> simpa only [Turn.Covers, h] using both
  cases op : p.op with
  | erase | lock | unlock => exact byBlocks (by simp [Op.byBlocks, op])
  | program =>
    obtain ⟨x, there, left, right⟩ := tiles.covers low (by omega)
    refine ⟨_, mem_map_of_mem (a := x) (by simpa only [places, op] using there), ?_⟩
    simpa only [Turn.Covers, op] using ⟨left, right⟩
  | read =>
    by_cases indirect : p.dev.indirect = true
    · obtain ⟨x, there, left, right⟩ := tiles.covers low (by omega)
      refine ⟨_, mem_map_of_mem (a := x) (by simpa only [places, op, indirect, if_true] using there), ?_⟩
      simpa only [Turn.Covers, op] using ⟨left, right⟩
    · have there : (p.base, min (p.base + p.len) (p.dev.last + 1) - p.base) ∈ p.places := by
        simp only [places, op, indirect, Bool.false_eq_true, if_false, mem_singleton]
      refine ⟨_, mem_map_of_mem there, ?_⟩
      simp only [Turn.Covers, op]
      omega

theorem Proper.meets_of_covers (drv : Driver) (apart : Apart devs) (proper : p.Proper devs)
    (covers : ∀ a, p.base ≤ a → a < p.base + p.len → a ≤ p.dev.last →
      ∃ t ∈ p.turns drv, t.Covers devs a) : p.Meets := by
  by_cases kind : p.op = .program ∨ p.op = .read
  · rcases kind with h | h
    · exact .inl h
    · exact .inr (.inl h)
  refine .inr (.inr fun a low high inside => ?_)
  obtain ⟨t, member, cover⟩ := covers a low high inside
  obtain ⟨x, there, rfl⟩ := mem_map.mp member
  obtain ⟨left, right, _⟩ := proper.places_within there
  have both : ∃ d ∈ devs, ∃ b ∈ d.blocks, (b.1 ≤ x.1 ∧ x.1 < b.1 + b.2) ∧ b.1 ≤ a ∧ a < b.1 + b.2 := by
    cases op : p.op with
    | program | read => simp [op] at kind
    | erase | lock | unlock => simpa only [Turn.Covers, op] using cover
  obtain ⟨e, eMember, b, block, here, bounds⟩ := both
  have within := e.tiles.within block
  obtain rfl := @Apart.same _ _ _ x.1 apart eMember proper.member ⟨by omega, by omega⟩ ⟨left, right⟩
  exact ⟨b, block, bounds, x, there, here⟩

theorem meets_start (start : p.base = p.dev.start) : p.Meets := by
  by_cases kind : p.op = .program ∨ p.op = .read
  · rcases kind with h | h
    · exact .inl h
    · exact .inr (.inl h)
  refine .inr (.inr fun a low high inside => ?_)
  set count := min (p.base + p.len) (p.dev.last + 1) - p.dev.start with count_def
  obtain ⟨b, block, begins, ends⟩ := @Dev.block_of a p.dev (by omega) inside
  have seen := (@Dev.loopErases p.dev (fun _ => 0) _ count count p.dev.blocks (fun _ member => member) p.dev.tiles
    (by have := p.dev.proper; omega) le_rfl).1
  have walked : b.1 ∈ walk p.dev count p.dev.start count := by
    rw [walk_eq fun _ => 0, seen]
    refine mem_map_of_mem (mem_filter.mpr ⟨block, ?_⟩)
    simp only [decide_eq_true_eq]
    have := p.dev.proper
    omega
  have placed : (b.1, p.dev.blockSize b.1) ∈ p.places := by
    have block' : p.dev.blockBegin p.base = p.dev.start := by rw [start, p.dev.blockBegin_start]
    cases op : p.op with
    | program | read => simp [op] at kind
    | erase | lock | unlock =>
      simp only [places, op, block']
      exact mem_map_of_mem walked
  exact ⟨b, block, ⟨begins, ends⟩, _, placed, le_rfl, by dsimp only; omega⟩

end Part

theorem parts_mem (apart : Apart devs) (member : q ∈ (parts devs fuel op base len).1) : q.Proper devs ∧
    (q.base = base ∧ q.op = op ∨ base < q.base ∧ q.base = q.dev.start ∧ q.op = following op) := by
  induction fuel generalizing op base len with
  | zero => simp [parts] at member
  | succ fuel ih =>
    rw [parts] at member
    cases found : findDev devs base with
    | none => simp [found] at member
    | some d =>
      obtain ⟨there, low, high⟩ := findDev_some found
      have here : (⟨op, d, base, len⟩ : Part).Proper devs := ⟨there, low, high⟩
      simp only [found] at member
      split at member
      · rcases mem_cons.mp member with rfl | later
        · exact ⟨here, .inl ⟨rfl, rfl⟩⟩
        · obtain ⟨proper, place⟩ := ih later
          refine ⟨proper, .inr ?_⟩
          rcases place with ⟨baseIs, opIs⟩ | ⟨further, start, opIs⟩
          · have start : q.dev.start = d.last + 1 := by
              by_contra before
              obtain ⟨qMember, qLow, qHigh⟩ := proper
              obtain rfl := @Apart.same _ _ _ d.last apart there qMember ⟨d.proper, le_rfl⟩ ⟨by omega, by omega⟩
              omega
            exact ⟨by omega, by omega, opIs⟩
          · refine ⟨by omega, start, opIs.trans ?_⟩
            cases op <;> rfl
      · obtain rfl := mem_singleton.mp member
        exact ⟨here, .inl ⟨rfl, rfl⟩⟩

theorem parts_next (split : (parts devs fuel op base len).1 = before ++ after)
    (short : after = [] → (parts devs fuel op base len).2 = false) : ∃ a, base ≤ a ∧ (0 < len → a < base + len) ∧
      (∀ q ∈ before, q.dev.last < a) ∧ ∀ p ∈ after.head?, p.base = a := by
  induction before generalizing fuel op base len with
  | nil =>
    refine ⟨base, le_rfl, by omega, by simp, fun p first => ?_⟩
    cases fuel with
    | zero =>
      obtain rfl : after = [] := split.symm
      simp at first
    | succ fuel =>
      rw [parts] at split
      cases found : findDev devs base with
      | none =>
        obtain rfl : after = [] := by simpa [found] using split.symm
        simp at first
      | some d =>
        simp only [found, nil_append] at split
        split at split
        · rw [← split] at first
          obtain rfl : (⟨op, d, base, len⟩ : Part) = p := by simpa using first
          rfl
        · rw [← split] at first
          obtain rfl : (⟨op, d, base, len⟩ : Part) = p := by simpa using first
          rfl
  | cons q before ih =>
    cases fuel with
    | zero => simp [parts] at split
    | succ fuel =>
      rw [parts] at split short
      cases found : findDev devs base with
      | none => simp [found] at split
      | some d =>
        obtain ⟨_, low, high⟩ := findDev_some found
        simp only [found] at split short
        by_cases more : len > d.last + 1 - base
        · rw [if_pos more] at split short
          obtain ⟨rfl, rest⟩ := cons.inj split
          obtain ⟨a, from', to', behind, begins⟩ := ih rest short
          refine ⟨a, by omega, fun _ => by omega, fun q' member => ?_, begins⟩
          rcases mem_cons.mp member with rfl | later
          · dsimp only
            omega
          · exact behind q' later
        · rw [if_neg more] at split short
          obtain ⟨rfl, rest⟩ := cons.inj split
          obtain ⟨rfl, rfl⟩ := append_eq_nil_iff.mp rest.symm
          exact absurd (short rfl) (by simp)

theorem parts_fit (fits : (parts devs fuel op base len).2 = true) (low : base ≤ a) (high : a < base + len) :
    ∃ q ∈ (parts devs fuel op base len).1, q.base ≤ a ∧ a < q.base + q.len ∧ a ≤ q.dev.last := by
  induction fuel generalizing op base len with
  | zero => simp [parts] at fits
  | succ fuel ih =>
    rw [parts] at fits ⊢
    cases found : findDev devs base with
    | none => simp [found] at fits
    | some d =>
      simp only [found] at fits ⊢
      by_cases more : len > d.last + 1 - base
      · rw [if_pos more] at fits ⊢
        have := (findDev_some found).2
        by_cases here : a ≤ d.last
        · exact ⟨_, mem_cons_self .., low, high, here⟩
        · obtain ⟨q, member, inside⟩ := ih fits (by omega) (by omega)
          exact ⟨q, mem_cons_of_mem _ member, inside⟩
      · rw [if_neg more]
        have := (findDev_some found).2
        exact ⟨_, mem_singleton_self _, low, high, by dsimp only; omega⟩

theorem parts_first (found : findDev devs base = some d) :
    ∃ rest, (parts devs (len + 1) op base len).1 = ⟨op, d, base, len⟩ :: rest ∧
      (len = 0 → rest = [] ∧ (parts devs (len + 1) op base len).2 = true) := by
  rw [parts, found]
  dsimp only
  split
  · exact ⟨_, rfl, fun _ => by omega⟩
  · exact ⟨[], rfl, fun _ => ⟨rfl, rfl⟩⟩

theorem parts_missing (missing : findDev devs base = none) : parts devs (len + 1) op base len = ([], false) := by
  rw [parts, missing]

/-- The turns of clean parts deal with the range if and only if the first device is met, and `cyg_flash_unlock` goes no
further. -/
theorem processed_iff (apart : Apart devs) (found : findDev devs base = some d)
    (clean : ∀ p ∈ (parts devs (len + 1) op base len).1, p.Clean drv) (fits : (parts devs
      (len + 1) op base len).2 = true) :
    Processed devs op base len ((parts devs (len + 1) op base len).1.flatMap (·.turns drv)) ↔
      (op = .unlock → (parts devs (len + 1) op base len).1.length = 1) ∧
        ∀ p ∈ (parts devs (len + 1) op base len).1.head?, p.Meets := by
  obtain ⟨rest, first, _⟩ := @parts_first devs d op base len found
  set ps := (parts devs (len + 1) op base len).1 with ps_def
  have proper : ∀ q ∈ ps, q.Proper devs := fun q member => (parts_mem apart member).1
  have place : ∀ q ∈ ps, q.base = base ∧ q.op = op ∨ base < q.base ∧ q.base = q.dev.start ∧ q.op = following op :=
    fun q member => (parts_mem apart member).2
  have turnOp : ∀ q : Part, ∀ t ∈ q.turns drv, t.op = q.op := fun q t member => by
    obtain ⟨x, _, rfl⟩ := mem_map.mp member
    rfl
  -- the first device ends before any later part begins
  have behind : ∀ q ∈ rest, d.last < q.base := fun q member => by
    obtain ⟨front, back, rfl⟩ := append_of_mem member
    obtain ⟨a, _, _, ends, begins⟩ := @parts_next devs op base len (len + 1) (⟨op, d, base, len⟩ :: front) (q :: back)
      (by rw [← ps_def, first]; rfl) (by simp)
    rw [begins q (by simp)]
    exact ends _ (mem_cons_self ..)
  have covered : ∀ q ∈ rest, ∀ t ∈ q.turns drv, ∀ a, t.Covers devs a → d.last < a := fun q member t turn a covers => by
    have inPs : q ∈ ps := first ▸ mem_cons_of_mem _ member
    have within := (proper q inPs).covers_within apart turn covers
    have := behind q member
    rcases place q inPs with ⟨same, _⟩ | ⟨_, start, _⟩
    · have := (findDev_some found).2
      omega
    · omega
  have head : ∀ p ∈ ps.head?, p = ⟨op, d, base, len⟩ := fun p isFirst => by
    rw [first] at isFirst
    exact (Option.some.inj isFirst).symm
  have firstIn : (⟨op, d, base, len⟩ : Part) ∈ ps := by
    rw [first]
    exact mem_cons_self ..
  constructor
  · intro processed
    refine ⟨fun isUnlock => ?_, fun p isFirst => ?_⟩
    · subst isUnlock
      cases rest with
      | nil => rw [first]; rfl
      | cons q back =>
        -- the second device is locked, so that its first address has not been dealt with
        obtain ⟨a, from', to', ends, begins⟩ := @parts_next devs .unlock base len
          (len + 1) [⟨.unlock, d, base, len⟩] (q :: back)
          (by rw [← ps_def, first]; rfl) (by simp)
        have positive : 0 < len := by
          by_contra none'
          obtain ⟨rest', first', alone⟩ := @parts_first devs d .unlock base len found
          rw [← ps_def, first] at first'
          have := (cons.inj first').2
          rw [(alone (by omega)).1] at this
          simp at this
        obtain ⟨t, member, opIs, _, covers⟩ := processed a from' (to' positive)
        obtain ⟨p, there, turn⟩ := mem_flatMap.mp member
        rcases place p there with ⟨same, _⟩ | ⟨_, _, opP⟩
        · rw [first] at there
          rcases mem_cons.mp there with rfl | later
          · have := ((proper _ firstIn).covers_within apart turn covers).2
            have := ends _ (mem_singleton_self _)
            omega
          · have := behind p later
            have := (findDev_some found).2
            omega
        · rw [turnOp p t turn, opP] at opIs
          simp [following] at opIs
    · obtain rfl := head p isFirst
      refine (proper _ firstIn).meets_of_covers drv apart fun a low high inside => ?_
      obtain ⟨t, member, opIs, _, covers⟩ := processed a low high
      obtain ⟨p, there, turn⟩ := mem_flatMap.mp member
      rw [first] at there
      rcases mem_cons.mp there with rfl | later
      · exact ⟨t, turn, covers⟩
      · have := covered p later t turn a covers
        dsimp only at inside
        omega
  · rintro ⟨single, meets⟩ a low high
    obtain ⟨q, member, begins, ends, inside⟩ := parts_fit fits low high
    have meetsQ : q.Meets := by
      rcases place q member with ⟨same, _⟩ | ⟨_, start, _⟩
      · rw [← ps_def, first] at member
        rcases mem_cons.mp member with rfl | later
        · exact meets _ (by rw [first]; rfl)
        · have := behind q later
          have := (findDev_some found).2
          omega
      · exact Part.meets_start start
    have opQ : q.op = op := by
      rcases place q member with ⟨_, opIs⟩ | ⟨further, _, opIs⟩
      · exact opIs
      · by_cases isUnlock : op = .unlock
        · have one := single isUnlock
          rw [first] at one
          obtain rfl : rest = [] := by simpa using one
          rw [← ps_def, first] at member
          obtain rfl := mem_singleton.mp member
          rfl
        · rw [opIs]
          cases op <;> simp [following] at isUnlock ⊢
    obtain ⟨t, turn, covers⟩ := (proper q member).covers meetsQ begins ends inside
    exact ⟨t, mem_flatMap.mpr ⟨q, member, turn⟩, (turnOp q t turn).trans opQ, (clean q member).2 t turn, covers⟩

/-- Errors are not lost if and only if the operation goes well in the parts that it comes to. -/
theorem flash_errors (apart : Apart devs) (inside : base + len ≤ 2 ^ 32) :
    Honest devs drv given op base len ↔ Careful devs drv given op base len := by
  rw [honest_iff inside]
  set ps := (parts devs (len + 1) op base len).1 with ps_def
  set fits := (parts devs (len + 1) op base len).2 with fits_def
  dsimp only
  have positive : (∃ d, findDev devs base = some d) ∨ findDev devs base = none := by
    cases findDev devs base with
    | none => exact .inr rfl
    | some d => exact .inl ⟨d, rfl⟩
  by_cases allClean : ∀ p ∈ ps, p.Clean drv
  · have result : go drv given ps fits = ⟨if fits then cygFlashErrOk else cygFlashErrInvalid, none, ps.flatMap
    (·.turns drv)⟩ := by
      have whole := @go_clean drv given [] ps fits allClean
      rw [append_nil] at whole
      rw [whole]
      simp [go]
    have fine : ∀ t ∈ ps.flatMap (·.turns drv), t.stat = cygFlashErrOk := fun t member => by
      obtain ⟨p, there, turn⟩ := List.mem_flatMap.mp member
      exact (allClean p there).2 t turn
    have keeps : ∀ before p after, ps = before ++ p :: after → (∀ q ∈ before, q.Clean drv) → drv.can p.op p.dev = true →
        p.Keeps drv given := fun before p after split _ _ =>
      .inr (.inr (.inr fun t member => (allClean p (by simp [split])).2 t (dropLast_subset _ member)))
    rw [result]
    cases fitsIs : fits with
    | true =>
      obtain ⟨d, found⟩ : ∃ d, findDev devs base = some d := by
        rcases positive with found | missing
        · exact found
        · rw [fits_def, parts_missing missing] at fitsIs
          cases fitsIs
      have processed := processed_iff apart found allClean fitsIs
      simp only [if_true, true_iff, ne_eq, not_true_eq_false, false_imp_iff, and_true]
      obtain ⟨rest, first, _⟩ := @parts_first devs d op base len found
      have can : drv.can op d = true := (allClean ⟨op, d, base, len⟩
        (by rw [ps_def, first]; exact mem_cons_self ..)).1
      constructor
      · intro both
        exact ⟨keeps, fun _ _ => processed.mp both.2, fun _ => ⟨d, found, can⟩⟩
      · intro careful
        exact ⟨fine, processed.mpr (careful.meets allClean fitsIs)⟩
    | false =>
      have unfit : cygFlashErrInvalid ≠ cygFlashErrOk := by decide
      simp only [Bool.false_eq_true, if_false, unfit, false_iff, ne_eq, not_false_eq_true, true_imp_iff]
      obtain ⟨a, from', to', ends, _⟩ := @parts_next devs op base len (len + 1) ps [] (by simp [ps_def]) fun _ => fitsIs
      constructor
      · rintro ⟨notDone, _⟩
        refine ⟨keeps, fun _ isTrue => absurd isTrue (by simp [← fits_def, fitsIs]), fun empty => ?_⟩
        subst empty
        exact absurd ⟨fine, fun a low high => by omega⟩ notDone
      · intro careful
        refine ⟨fun done => ?_, fun before t after split _ bad => absurd (fine t
          (by dsimp only at split; rw [split]; simp)) bad⟩
        by_cases some' : 0 < len
        · obtain ⟨t, member, _, _, covers⟩ := done.2 a from' (to' some')
          obtain ⟨p, there, turn⟩ := List.mem_flatMap.mp member
          have := ((parts_mem apart there).1.covers_within apart turn covers).2
          have := ends p there
          omega
        · obtain ⟨d, found, _⟩ := careful.empty (by omega)
          obtain ⟨rest, _, alone⟩ := @parts_first devs d op base len found
          rw [← fits_def, fitsIs] at alone
          exact absurd (alone (by omega)).2 (by simp)
  · obtain ⟨before, p, after, split, clean, failed⟩ := first_failure (P := (Part.Clean · drv)) (by simpa using allClean)
    have atZero : len = 0 → before = [] ∧ findDev devs base = some p.dev ∧ p.op = op := fun empty => by
      rcases positive with ⟨d, found⟩ | missing
      · obtain ⟨rest, first, alone⟩ := @parts_first devs d op base len found
        rw [(alone empty).1, ← ps_def, split] at first
        have short := congrArg List.length first
        simp only [length_append, length_cons, length_nil] at short
        obtain rfl : before = [] := List.length_eq_zero_iff.mp (by omega)
        obtain ⟨rfl, _⟩ := List.cons.inj first
        exact ⟨rfl, found, rfl⟩
      · rw [ps_def, parts_missing missing] at split
        simp at split
    have other : ∀ before' p' after', ps = before' ++ p' :: after' →
      (∀ q ∈ before', q.Clean drv) → ¬p'.Clean drv → p' = p :=
      fun before' p' after' split' clean' failed' => (first_failure_unique
        (split'.symm.trans split) clean' clean failed' failed).2.1
    have keepsClean : ∀ q : Part, q.Clean drv → q.Keeps drv given := fun q cleanQ =>
      .inr (.inr (.inr fun t member => cleanQ.2 t (dropLast_subset _ member)))
    by_cases can : drv.can p.op p.dev = true
    · obtain ⟨fails, keepsIff⟩ := @go_failed drv given before after p fits clean can failed
      rw [← split] at fails keepsIff
      have bad : ¬∀ t ∈ (go drv given ps fits).turns, t.stat = cygFlashErrOk := fun fine => by
        obtain ⟨t, member, bad⟩ := fails
        exact bad (fine t member)
      have same : ((go drv given ps fits).stat = cygFlashErrOk ↔ (∀ t ∈
        (go drv given ps fits).turns, t.stat = cygFlashErrOk) ∧
          Processed devs op base len (go drv given ps fits).turns) ↔ (go drv given ps fits).stat ≠ cygFlashErrOk := by
        simp [bad]
      rw [same]
      constructor
      · rintro ⟨error, reported⟩
        have keeps := keepsIff.mpr ⟨error, reported error⟩
        refine ⟨fun before' p' after' split' clean' can' => ?_, fun all => absurd all allClean, fun empty => ?_⟩
        · by_cases cleanP : p'.Clean drv
          · exact keepsClean p' cleanP
          · rw [other before' p' after' split' clean' cleanP]
            exact keeps
        · obtain ⟨_, found, opIs⟩ := atZero empty
          exact ⟨p.dev, found, opIs ▸ can⟩
      · intro careful
        have both := keepsIff.mp (careful.keeps before p after split clean can)
        exact ⟨both.1, fun _ => both.2⟩
    · have result : go drv given ps fits = ⟨cygFlashErrInvalid, none, before.flatMap (·.turns drv)⟩ := by
        rw [split, go_clean clean, go, if_neg can]
        simp
      have fine : ∀ t ∈ before.flatMap (·.turns drv), t.stat = cygFlashErrOk := fun t member => by
        obtain ⟨q, there, turn⟩ := List.mem_flatMap.mp member
        exact (clean q there).2 t turn
      have unfit : cygFlashErrInvalid ≠ cygFlashErrOk := by decide
      rw [result]
      simp only [unfit, false_iff, ne_eq, not_false_eq_true, true_imp_iff]
      obtain ⟨a, from', to', ends, _⟩ := @parts_next devs op base len (len + 1) before (p :: after) split (by simp)
      constructor
      · rintro ⟨notDone, _⟩
        refine ⟨fun before' p' after' split' clean' can' => ?_, fun all => absurd all allClean, fun empty => ?_⟩
        · by_cases cleanP : p'.Clean drv
          · exact keepsClean p' cleanP
          · rw [other before' p' after' split' clean' cleanP] at can'
            exact absurd can' can
        · exact absurd ⟨fine, fun a low high => by omega⟩ notDone
      · intro careful
        refine ⟨fun done => ?_, fun front t back splitT _ bad => absurd (fine t
          (by dsimp only at splitT; rw [splitT]; simp)) bad⟩
        by_cases some' : 0 < len
        · obtain ⟨t, member, _, _, covers⟩ := done.2 a from' (to' some')
          obtain ⟨q, there, turn⟩ := List.mem_flatMap.mp member
          have inPs : q ∈ (parts devs (len + 1) op base len).1 := by
            rw [← ps_def, split]
            exact mem_append_left _ there
          have := ((parts_mem apart inPs).1.covers_within apart turn covers).2
          have := ends q there
          omega
        · obtain ⟨_, found, opIs⟩ := atZero (by omega)
          obtain ⟨d, found', can'⟩ := careful.empty (by omega)
          obtain rfl := Option.some.inj (found.symm.trans found')
          exact can (opIs ▸ can')

/-- Drivers that always succeed. -/
def willing : Driver := ⟨fun _ _ => cygFlashErrOk, fun _ => false, fun _ => true, fun _ => true⟩

/-- A driver for which the block at one address cannot be locked. -/
def stuckAt (at' : Nat) : Driver :=
  ⟨fun op a => if op = .lock ∧ a = at' then 3 else cygFlashErrOk, fun _ => false, fun _ => true, fun _ => true⟩

theorem flash_errors_program : Honest [mixed, uniform] willing false .program 17 14 := by
  have apart : Apart [mixed, uniform] := List.pairwise_pair.mpr (by decide)
  refine (flash_errors apart (by decide)).mpr ⟨fun before p after split _ _ => ?_, fun _ _ =>
    ⟨nofun, fun p first => ?_⟩, nofun⟩
  · have member : p ∈ (parts [mixed, uniform] (14 + 1) .program 17 14).1 := by
      rw [split]
      simp
    rcases (parts_mem apart member).2 with ⟨_, op⟩ | ⟨_, _, op⟩ <;> exact .inr (.inl op)
  · rcases (parts_mem apart (mem_of_mem_head? first)).2 with ⟨_, op⟩ | ⟨_, _, op⟩ <;> exact .inl op

/-- Without an `err_address` the failure for the first block is forgotten. -/
theorem lock_failure_forgotten : ¬Honest [uniform] (stuckAt 26) false .lock 26 8 := by
  rw [honest_iff (by decide)]
  rintro ⟨honest, _⟩
  exact absurd (honest.mp (by decide)).1 (by decide)

end Ecos.Flash.Errors
