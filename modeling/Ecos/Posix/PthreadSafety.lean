import Ecos.Posix.Pthread

namespace Ecos.Posix.Pthread
open Function List Option BitVec State Run
variable {c : Config}

/-- The state of the thread in each slot. -/
def State.phase (s : State c) (i : Fin c.threadsMax) : Option Phase := (s.threadTable i).map fun b => (s.info b).state

/-- How many slots are occupied, and how many have a thread in the given state. -/
def State.occupied (s : State c) : Nat := tally Option.isSome s.phase
def State.number (s : State c) (p : Phase) : Nat := tally (fun q => q == some p) s.phase

/-- The invariant of the table. -/
structure Sound (s : State c) : Prop where
  whole : s.broken = false
  count : s.pthreadCount = s.occupied
  exited : s.pthreadsExited = s.number .exited
  tobejoined : s.pthreadsTobejoined = s.number .join
  held : ∀ i b, s.threadTable i = some b → b < s.created ∧ s.reaped b = false ∧ (s.info b).state ≠ .free
  single : ∀ i j b, s.threadTable i = some b → s.threadTable j = some b → i = j
  placed : ∀ b < s.created, s.reaped b = false → ∃ i, s.threadTable i = some b
  indexed : ∀ i b, s.threadTable i = some b → index (s.info b).id = i
  ranged : ∀ b < s.created, index (s.info b).id < c.threadsMax
  cookie : s.threadIdCookie.toNat % 1024 = 0
  unique : ∀ b b', b < s.created → b' < s.created → (s.info b).id = (s.info b').id → b = b'
  waiting : ∀ j b, s.joining j = some b → b < s.created ∧ s.reaped b = false
  ended : ∀ b, s.reaped b = true → b < s.created ∧ (s.info b).state = .exited

variable {s s' : State c} {i : Fin c.threadsMax} {b : Nat} {p : Phase}

theorem phase_of (at' : s.threadTable i = some b) : s.phase i = some (s.info b).state := by simp [phase, at']

theorem phase_setInfo (sound : Sound s) (at' : s.threadTable i = some b) (t : Info) :
    (s.setInfo b t).phase = update s.phase i (some t.state) := by
  funext j
  by_cases here : j = i
  · simp [here, phase, setInfo, at']
  · rw [update_of_ne here]
    simp only [phase, setInfo]
    cases other : s.threadTable j with
    | none => rfl
    | some b' =>
      have apart : b' ≠ b := fun same => here (sound.single j i b (same ▸ other) at')
      simp [apart]

theorem counts_update {f : Fin c.threadsMax → Option Phase} (x : Option Phase) (q : Option Phase → Bool) :
    (tally q (update f i x) : Int) = tally q f + (q x).toNat - (q (f i)).toNat := by
  have := tally_update q f i x
  omega

/-- One turn of the reaper, on a thread that has exited. -/
def State.reapThread (s : State c) (i : Fin c.threadsMax) (b : Nat) : State c :=
  { s with
    threadTable := Function.update s.threadTable i none
    reaped := Function.update s.reaped b true
    pthreadCount := s.pthreadCount - 1
    pthreadsExited := s.pthreadsExited - 1 }

theorem Sound.reapThread (sound : Sound s) (at' : s.threadTable i = some b) (gone : (s.info b).state = .exited)
    (unwaited : ∀ j, s.joining j ≠ some b) : Sound (s.reapThread i b) := by
  have phases : (s.reapThread i b).phase = update s.phase i none := by
    funext j
    by_cases here : j = i <;> simp [here, State.phase, State.reapThread]
  have was : s.phase i = some .exited := by rw [phase_of at', gone]
  have apart : ∀ {j b'}, update s.threadTable i none j = some b' → s.threadTable j = some b' ∧ b' ≠ b := by
    intro j b' at''
    by_cases here : j = i
    · simp [here] at at''
    · rw [update_of_ne here] at at''
      refine ⟨at'', ?_⟩
      rintro rfl
      exact here (sound.single j i _ at'' at')
  constructor
  · exact sound.whole
  · show s.pthreadCount - 1 = _
    rw [occupied, phases, counts_update, was, sound.count]
    rfl
  · show s.pthreadsExited - 1 = _
    rw [number, phases, counts_update, was, sound.exited]
    rfl
  · show s.pthreadsTobejoined = _
    rw [number, phases, counts_update, was, sound.tobejoined]
    simp [number, show (Phase.exited == Phase.join) = false from rfl]
  · intro j b' at''
    obtain ⟨before, other⟩ := apart at''
    obtain ⟨born, alive, used⟩ := sound.held j b' before
    exact ⟨born, by simpa [State.reapThread, other] using alive, used⟩
  · intro j k b' one two
    exact sound.single j k b' (apart one).1 (apart two).1
  · intro b' born alive
    by_cases same : b' = b
    · simp [State.reapThread, same] at alive
    · obtain ⟨j, at''⟩ := sound.placed b' born (by simpa [State.reapThread, same] using alive)
      have away : j ≠ i := by
        rintro rfl
        exact same (some.inj (at''.symm.trans at'))
      exact ⟨j, by simpa [State.reapThread, away] using at''⟩
  · intro j b' at''
    exact sound.indexed j b' (apart at'').1
  · exact sound.ranged
  · exact sound.cookie
  · exact sound.unique
  · intro j b' waits
    obtain ⟨born, alive⟩ := sound.waiting j b' waits
    have other : b' ≠ b := by
      rintro rfl
      exact unwaited j waits
    exact ⟨born, by simpa [State.reapThread, other] using alive⟩
  · intro b' dead
    by_cases same : b' = b
    · subst same
      exact ⟨(sound.held i b' at').1, gone⟩
    · exact sound.ended b' (by simpa [State.reapThread, same] using dead)

/-- What the reaper leaves as it is, and what it takes. -/
structure Reaps (s s' : State c) : Prop where
  info : s'.info = s.info
  joining : s'.joining = s.joining
  created : s'.created = s.created
  cookie : s'.threadIdCookie = s.threadIdCookie
  reaped : ∀ b, s.reaped b = true → s'.reaped b = true
  slot : ∀ i, s'.threadTable i = s.threadTable i ∨
    (s'.threadTable i = none ∧ ∃ b, s.threadTable i = some b ∧ (s.info b).state = .exited ∧ s'.reaped b = true)

theorem Reaps.refl (s : State c) : Reaps s s := ⟨rfl, rfl, rfl, rfl, fun _ => id, fun _ => .inl rfl⟩

theorem Reaps.trans {s'' : State c} (first : Reaps s s') (second : Reaps s' s'') : Reaps s s'' := by
  refine ⟨second.info.trans first.info, second.joining.trans first.joining, second.created.trans first.created,
    second.cookie.trans first.cookie, fun b dead => second.reaped b (first.reaped b dead), fun i => ?_⟩
  rcases second.slot i with same | ⟨empty, b, at', gone, dead⟩
  · rcases first.slot i with before | ⟨empty, b, at', gone, dead⟩
    · exact .inl (same.trans before)
    · exact .inr ⟨same.trans empty, b, at', gone, second.reaped b dead⟩
  · rcases first.slot i with before | ⟨gone', -⟩
    · exact .inr ⟨empty, b, before ▸ at', by rwa [first.info] at gone, dead⟩
    · rw [gone'] at at'
      cases at'

theorem Sound.reapAt (sound : Sound s) (unwaited : Run.Unwaited s) (i : Fin c.threadsMax) :
    Sound (s.reapAt i) ∧ Reaps s (s.reapAt i) ∧ (s.reapAt i).phase i ≠ some .exited := by
  unfold State.reapAt
  by_cases some' : s.pthreadsExited = 0
  · rw [if_neg (not_not.mpr some')]
    refine ⟨sound, .refl s, fun here => ?_⟩
    have counted : 0 < s.number .exited := tally_pos (t := i) (by simp [here])
    have := sound.exited
    omega
  · rw [if_pos some']
    cases at' : s.threadTable i with
    | none => exact ⟨sound, .refl s, by simp [phase, at']⟩
    | some b =>
      dsimp only
      by_cases gone : (s.info b).state = .exited
      · rw [if_pos gone]
        refine ⟨sound.reapThread at' gone fun j waits => unwaited j b waits gone, ?_, by simp [phase]⟩
        refine ⟨rfl, rfl, rfl, rfl, fun b' dead => ?_, fun j => ?_⟩
        · by_cases same : b' = b
          · simp [same]
          · simpa [same] using dead
        · by_cases here : j = i
          · subst here
            exact .inr ⟨update_self .., b, at', gone, update_self ..⟩
          · exact .inl (update_of_ne here ..)
      · rw [if_neg gone]
        exact ⟨sound, .refl s, by simpa [phase, at'] using gone⟩

theorem Reaps.unwaited (reaps : Reaps s s') (unwaited : Run.Unwaited s) : Run.Unwaited s' := by
  intro j b waits
  rw [reaps.info]
  exact unwaited j b (reaps.joining ▸ waits)

theorem Reaps.cleared (reaps : Reaps s s') (clear : s.phase i ≠ some .exited) : s'.phase i ≠ some .exited := by
  rcases reaps.slot i with same | ⟨empty, -⟩
  · simpa [phase, same, reaps.info] using clear
  · simp [phase, empty]

theorem Sound.sweep : ∀ (l : List (Fin c.threadsMax)) {s : State c}, Sound s → Run.Unwaited s →
    Sound (l.foldl State.reapAt s) ∧ Reaps s (l.foldl State.reapAt s) ∧
      ∀ i ∈ l, (l.foldl State.reapAt s).phase i ≠ some .exited := by
  intro l
  induction l with
  | nil => exact fun sound _ => ⟨sound, .refl _, by simp⟩
  | cons i l ih =>
    intro s sound unwaited
    obtain ⟨once, reaps, clear⟩ := sound.reapAt unwaited i
    obtain ⟨after, rest, clears⟩ := ih once (reaps.unwaited unwaited)
    refine ⟨after, reaps.trans rest, fun j mem => ?_⟩
    rcases mem_cons.mp mem with rfl | later
    · exact rest.cleared clear
    · exact clears j later

theorem Sound.pthreadReap (sound : Sound s) (unwaited : Run.Unwaited s) :
    Sound s.pthreadReap ∧ Reaps s s.pthreadReap ∧ ∀ i, s.pthreadReap.phase i ≠ some .exited := by
  obtain ⟨after, reaps, clears⟩ := Sound.sweep (finRange c.threadsMax) sound unwaited
  exact ⟨after, reaps, fun i => clears i (mem_finRange i)⟩

@[simp] theorem toNat_beq (p q : Phase) : (p == q).toNat = if p = q then 1 else 0 := by
  by_cases same : p = q <;> simp [same]

theorem Sound.change (sound : Sound s) (at' : s.threadTable i = some b) {t : Info} (id : t.id = (s.info b).id)
    (used : t.state ≠ .free) {e j : Int}
    (exited : e = s.pthreadsExited + (t.state == .exited).toNat - ((s.info b).state == .exited).toNat)
    (tobejoined : j = s.pthreadsTobejoined + (t.state == .join).toNat - ((s.info b).state == .join).toNat) :
    Sound { s.setInfo b t with pthreadsExited := e, pthreadsTobejoined := j } := by
  have phases := phase_setInfo sound at' t
  have was := phase_of at'
  have alive := (sound.held i b at').2.1
  have ids : ∀ b', ((s.setInfo b t).info b').id = (s.info b').id := by
    intro b'
    by_cases same : b' = b
    · simpa [setInfo, same] using id
    · simp [setInfo, same]
  have number : ∀ p, ((s.setInfo b t).number p : Int) =
      s.number p + (t.state == p).toNat - ((s.info b).state == p).toNat := by
    intro p
    rw [number, phases, counts_update, was]
    simp [number]
  constructor
  · exact sound.whole
  · show s.pthreadCount = (tally _ (s.setInfo b t).phase : Nat)
    rw [phases, counts_update, was, sound.count]
    simp [occupied]
  · show e = (s.setInfo b t).number .exited
    rw [number, exited, sound.exited]
  · show j = (s.setInfo b t).number .join
    rw [number, tobejoined, sound.tobejoined]
  · intro k b' at''
    obtain ⟨born, living, inUse⟩ := sound.held k b' at''
    refine ⟨born, living, ?_⟩
    by_cases same : b' = b
    · simpa [setInfo, same] using used
    · simpa [setInfo, same] using inUse
  · exact sound.single
  · exact sound.placed
  · intro k b' at''
    exact (congrArg index (ids b')).trans (sound.indexed k b' at'')
  · intro b' born
    exact (congrArg index (ids b')).trans_lt (sound.ranged b' born)
  · exact sound.cookie
  · intro b₁ b₂ born₁ born₂ same
    exact sound.unique b₁ b₂ born₁ born₂ ((ids b₁).symm.trans (same.trans (ids b₂)))
  · exact sound.waiting
  · intro b' dead
    have other : b' ≠ b := by
      rintro rfl
      have dead : s.reaped b' = true := dead
      simp [alive] at dead
    simpa [setInfo, other] using sound.ended b' dead

theorem index_id (cookie : BitVec 32) (aligned : cookie.toNat % 1024 = 0) (i : Fin c.threadsMax) :
    index (BitVec.ofNat 32 i + cookie) = i := by
  have most := c.most
  have mask : (cookieInc - 1).toNat = 2 ^ 10 - 1 := by decide
  rw [index, toNat_and, mask, Nat.and_two_pow_sub_one_eq_mod, toNat_add, toNat_ofNat]
  omega

theorem aligned_next {cookie : BitVec 32} (aligned : cookie.toNat % 1024 = 0) : (cookie + cookieInc).toNat % 1024 = 0 := by
  have inc : cookieInc.toNat = 1024 := by decide
  rw [toNat_add, inc]
  omega

/-- A new thread enters a free slot, with an id that no thread has had. -/
theorem Sound.enter (sound : Sound s) (vacant : s.threadTable i = none) (joinable : Bool)
    (new : ∀ b < s.created, (s.info b).id ≠ s.nextId i) : Sound (s.enter i joinable) := by
  have aligned := aligned_next sound.cookie
  have absent : ∀ j, s.threadTable j ≠ some s.created := fun j at' => lt_irrefl _ (sound.held j _ at').1
  have unborn : s.reaped s.created = false :=
    Bool.eq_false_iff.mpr fun dead => lt_irrefl _ (sound.ended _ dead).1
  have used : (if joinable then Phase.running else Phase.detached) ≠ .free ∧
      (if joinable then Phase.running else Phase.detached) ≠ .join ∧
      (if joinable then Phase.running else Phase.detached) ≠ .exited := by
    cases joinable <;> decide
  have older : ∀ {b}, b < s.created → (s.enter i joinable).info b = s.info b := fun before =>
    update_of_ne (ne_of_lt before) ..
  have newer : (s.enter i joinable).info s.created = ⟨if joinable then .running else .detached, s.nextId i, 0, false, true⟩ :=
    update_self ..
  have slots : ∀ {j b}, (s.enter i joinable).threadTable j = some b →
      (j = i ∧ b = s.created) ∨ (j ≠ i ∧ s.threadTable j = some b) := by
    intro j b at'
    have at' : update s.threadTable i (some s.created) j = some b := at'
    by_cases here : j = i
    · rw [here, update_self] at at'
      exact .inl ⟨here, (some.inj at').symm⟩
    · rw [update_of_ne here] at at'
      exact .inr ⟨here, at'⟩
  have phases : (s.enter i joinable).phase = update s.phase i (some (if joinable then .running else .detached)) := by
    funext j
    by_cases here : j = i
    · simp [here, State.phase, State.enter]
    · rw [update_of_ne here]
      have same : (s.enter i joinable).threadTable j = s.threadTable j := update_of_ne here ..
      simp only [phase, same]
      cases other : s.threadTable j with
      | none => rfl
      | some b => simp [older (sound.held j b other).1]
  have was : s.phase i = none := by simp [phase, vacant]
  have number : ∀ p, (if joinable then Phase.running else Phase.detached) ≠ p →
      ((s.enter i joinable).number p : Int) = s.number p := by
    intro p other
    have zero : (some (if joinable then Phase.running else Phase.detached) == some p) = false := by simpa using other
    rw [number, phases, counts_update, was]
    simp only [zero]
    simp [number]
  constructor
  · exact sound.whole
  · show s.pthreadCount + 1 = _
    rw [occupied, phases, counts_update, was, sound.count]
    simp [occupied]
  · exact sound.exited.trans (number .exited used.2.2).symm
  · exact sound.tobejoined.trans (number .join used.2.1).symm
  · intro j b at'
    rcases slots at' with ⟨rfl, rfl⟩ | ⟨-, before⟩
    · refine ⟨Nat.lt_succ_self _, unborn, ?_⟩
      rw [newer]
      exact used.1
    · obtain ⟨born, alive, inUse⟩ := sound.held j b before
      refine ⟨Nat.lt_succ_of_lt born, alive, ?_⟩
      rwa [older born]
  · intro j k b one two
    rcases slots one with ⟨atJ, newB⟩ | ⟨-, oldJ⟩
    · rcases slots two with ⟨atK, -⟩ | ⟨-, oldK⟩
      · exact atJ.trans atK.symm
      · exact absurd (newB ▸ oldK) (absent k)
    · rcases slots two with ⟨-, newB⟩ | ⟨-, oldK⟩
      · exact absurd (newB ▸ oldJ) (absent j)
      · exact sound.single j k b oldJ oldK
  · intro b born alive
    by_cases same : b = s.created
    · exact ⟨i, by simp [same, State.enter]⟩
    · have born : b < s.created + 1 := born
      obtain ⟨j, at'⟩ := sound.placed b (by omega) alive
      have away : j ≠ i := by
        rintro rfl
        simp [vacant] at at'
      exact ⟨j, by simpa [State.enter, away] using at'⟩
  · intro j b at'
    rcases slots at' with ⟨rfl, rfl⟩ | ⟨-, before⟩
    · rw [newer]
      exact index_id _ aligned j
    · rw [older (sound.held j b before).1]
      exact sound.indexed j b before
  · intro b born
    have born : b < s.created + 1 := born
    by_cases last : b = s.created
    · rw [last, newer]
      exact (index_id _ aligned i).trans_lt i.isLt
    · rw [older (show b < s.created by omega)]
      exact sound.ranged b (by omega)
  · exact aligned
  · intro b b' born born' same
    have born : b < s.created + 1 := born
    have born' : b' < s.created + 1 := born'
    by_cases last : b = s.created
    · by_cases last' : b' = s.created
      · omega
      · rw [last, newer, older (show b' < s.created by omega)] at same
        exact absurd same.symm (new b' (by omega))
    · by_cases last' : b' = s.created
      · rw [last', newer, older (show b < s.created by omega)] at same
        exact absurd same (new b (by omega))
      · rw [older (show b < s.created by omega), older (show b' < s.created by omega)] at same
        exact sound.unique b b' (by omega) (by omega) same
  · intro j b waits
    obtain ⟨born, alive⟩ := sound.waiting j b waits
    exact ⟨Nat.lt_succ_of_lt born, alive⟩
  · intro b dead
    obtain ⟨born, gone⟩ := sound.ended b dead
    refine ⟨Nat.lt_succ_of_lt born, ?_⟩
    rwa [older born]

theorem pthreadInfoId_found {id : BitVec 32} (found : s.pthreadInfoId id = some (some b)) :
    ∃ i, s.threadTable i = some b ∧ (s.info b).id = id ∧ (s.info b).state ≠ .free ∧ (s.info b).state ≠ .exited := by
  unfold pthreadInfoId at found
  split at found
  · next inside =>
    split at found
    · cases found
    · next b' at' =>
      dsimp only at found
      split at found
      · cases found
      · next used =>
        split at found
        · cases found
        · next same =>
          obtain rfl : b' = b := by simpa using found
          push Not at used same
          exact ⟨_, at', same, used⟩
  · cases found

theorem pthreadInfoId_inside {id : BitVec 32} (inside : index id < c.threadsMax) : s.pthreadInfoId id ≠ none := by
  unfold pthreadInfoId
  rw [dif_pos inside]
  split
  · simp
  · dsimp only
    split
    · simp
    · split <;> simp

theorem freeSlot_some : ∀ (turns : Nat) {i j : Fin c.threadsMax}, s.freeSlot turns i = some j → s.threadTable j = none := by
  intro turns
  induction turns with
  | zero =>
    intro i j found
    cases found
  | succ turns ih =>
    intro i j found
    unfold State.freeSlot at found
    split at found
    · next empty =>
      obtain rfl := some.inj found
      exact empty
    · exact ih found

/-- The invariant of gentle runs: the table is sound, and the states of the threads say what has
happened to them. -/
structure Inv (r : Run c) : Prop where
  sound : Sound r.state
  alive : ∀ b < r.state.created, r.done b = none ↔
    (r.state.info b).state = .running ∨ (r.state.info b).state = .detached
  retval : ∀ b v, r.done b = some v → (r.state.info b).retval = v
  unborn : ∀ b, r.state.created ≤ b → r.done b = none
  claimed : ∀ b < r.state.created, r.released b = false ↔
    (r.state.info b).state = .running ∨ (r.state.info b).state = .join
  joined : ∀ j b v, (j, b, v) ∈ r.joins → b < r.state.created ∧ (r.state.info b).state = .exited ∧ r.done b = some v
  once : (r.joins.map (·.2.1)).Nodup

variable {r r' : Run c} {j : Caller} {id : BitVec 32} {v : Nat}

theorem Inv.initial : Inv (Run.initial c) := by
  have none' : ∀ q : Option Phase → Bool, q none = false → tally q (State.initial c).phase = 0 := fun q no =>
    tally_eq_zero fun i => no
  have inc : cookieInc.toNat % 1024 = 0 := by decide
  refine ⟨⟨rfl, ?_, ?_, ?_, ?_, ?_, ?_, ?_, ?_, inc, ?_, ?_, ?_⟩, ?_, ?_, fun _ _ => rfl, ?_, ?_, nodup_nil⟩
  · exact congrArg Nat.cast (none' _ rfl).symm
  · exact congrArg Nat.cast (none' _ rfl).symm
  · exact congrArg Nat.cast (none' _ rfl).symm
  all_goals simp [Run.initial, State.initial]

section
variable (inv : Inv r)
include inv

theorem Inv.placed (born : b < r.state.created) (alive : r.state.reaped b = false) :
    ∃ i, r.state.threadTable i = some b := inv.sound.placed b born alive

theorem Inv.step (born : b < r.state.created) (sound : Sound r'.state)
    (created : r'.state.created = r.state.created) (joins : r'.joins = r.joins)
    (others : ∀ b', b' ≠ b → r'.state.info b' = r.state.info b' ∧ r'.done b' = r.done b' ∧ r'.released b' = r.released b')
    (alive : r'.done b = none ↔ (r'.state.info b).state = .running ∨ (r'.state.info b).state = .detached)
    (retval : ∀ v, r'.done b = some v → (r'.state.info b).retval = v)
    (claimed : r'.released b = false ↔ (r'.state.info b).state = .running ∨ (r'.state.info b).state = .join)
    (joined : (r.state.info b).state = .exited → (r'.state.info b).state = .exited ∧ r'.done b = r.done b) : Inv r' := by
  refine ⟨sound, fun b' born' => ?_, fun b' v => ?_, fun b' young => ?_, fun b' born' => ?_, fun j b' v mem => ?_, ?_⟩
  · by_cases same : b' = b
    · exact same ▸ alive
    · obtain ⟨info, done, -⟩ := others b' same
      rw [info, done]
      exact inv.alive b' (created ▸ born')
  · by_cases same : b' = b
    · exact same ▸ retval v
    · obtain ⟨info, done, -⟩ := others b' same
      rw [info, done]
      exact inv.retval b' v
  · rw [created] at young
    obtain ⟨-, done, -⟩ := others b' (by omega)
    rw [done]
    exact inv.unborn b' young
  · by_cases same : b' = b
    · exact same ▸ claimed
    · obtain ⟨info, -, released⟩ := others b' same
      rw [info, released]
      exact inv.claimed b' (created ▸ born')
  · rw [joins] at mem
    obtain ⟨was, gone, done⟩ := inv.joined j b' v mem
    refine ⟨created ▸ was, ?_⟩
    by_cases same : b' = b
    · subst same
      exact ⟨(joined gone).1, (joined gone).2.trans done⟩
    · obtain ⟨info, done', -⟩ := others b' same
      rw [info, done']
      exact ⟨gone, done⟩
  · rw [joins]
    exact inv.once

theorem Inv.reap (sound : Sound s') (reaps : Reaps r.state s') : Inv { r with state := s' } where
  sound := sound
  alive b born := by
    show r.done b = none ↔ (s'.info b).state = .running ∨ (s'.info b).state = .detached
    rw [reaps.info]
    exact inv.alive b (reaps.created ▸ born)
  retval b v done := by
    show (s'.info b).retval = v
    rw [reaps.info]
    exact inv.retval b v done
  unborn b young := inv.unborn b (reaps.created ▸ young)
  claimed b born := by
    show r.released b = false ↔ (s'.info b).state = .running ∨ (s'.info b).state = .join
    rw [reaps.info]
    exact inv.claimed b (reaps.created ▸ born)
  joined j b v mem := by
    show b < s'.created ∧ (s'.info b).state = .exited ∧ _
    rw [reaps.info, reaps.created]
    exact inv.joined j b v mem
  once := inv.once

theorem Inv.pthreadReap (unwaited : Run.Unwaited r.state) :
    Inv { r with state := r.state.pthreadReap } ∧ Reaps r.state r.state.pthreadReap := by
  obtain ⟨sound, reaps, -⟩ := inv.sound.pthreadReap unwaited
  exact ⟨inv.reap sound reaps, reaps⟩

theorem Inv.wait {b : Option Nat} (alive : ∀ b', b = some b' → b' < r.state.created ∧ r.state.reaped b' = false) :
    Inv { r with state := { r.state with joining := update r.state.joining j b } } := by
  refine { inv with sound := { inv.sound with waiting := fun k b' waits => ?_ } }
  by_cases same : k = j
  · exact alive b' (by simpa [same] using waits)
  · exact inv.sound.waiting k b' (by simpa [same] using waits)

theorem Inv.unreaped (born : b < r.state.created) (living : r.done b = none) : r.state.reaped b = false := by
  refine Bool.eq_false_iff.mpr fun dead => ?_
  have gone := (inv.sound.ended b dead).2
  rcases (inv.alive b born).mp living with runs | detached
  · exact absurd (runs.symm.trans gone) (by decide)
  · exact absurd (detached.symm.trans gone) (by decide)

theorem Inv.pthreadExit (active : r.Active (.pthread b)) (v : Nat) : Inv (r.act (.pthreadExit b v)) := by
  obtain ⟨born, living, -⟩ := active
  have states := (inv.alive b born).mp living
  obtain ⟨i, at'⟩ := inv.placed born (inv.unreaped born living)
  have history : r.act (.pthreadExit b v) =
      { r with state := (r.state.pthreadExit b v).1, done := update r.done b (some v) } := rfl
  rw [history]
  have claimed := inv.claimed b born
  rcases states with runs | detached
  · have after : (r.state.pthreadExit b v).1 =
        { r.state.setInfo b { r.state.info b with cancelstate := false, retval := v, state := .join } with
          pthreadsExited := r.state.pthreadsExited, pthreadsTobejoined := r.state.pthreadsTobejoined + 1 } := by
      exact congrArg Prod.fst (if_neg (by simp [runs]))
    rw [after]
    have sound := inv.sound.change at' (t := { r.state.info b with cancelstate := false, retval := v, state := .join })
      (e := r.state.pthreadsExited) (j := r.state.pthreadsTobejoined + 1) rfl (by simp) (by simp [runs, toNat_beq])
      (by simp [runs, toNat_beq])
    refine inv.step born sound rfl rfl (fun b' other => ?_) ?_ ?_ ?_ ?_
    · simp [setInfo, other]
    · simp [setInfo]
    · simp [setInfo]
    · simpa [setInfo, runs] using claimed
    · simp [runs]
  · have after : (r.state.pthreadExit b v).1 =
        { r.state.setInfo b { r.state.info b with cancelstate := false, retval := v, state := .exited } with
          pthreadsExited := r.state.pthreadsExited + 1, pthreadsTobejoined := r.state.pthreadsTobejoined } := by
      exact congrArg Prod.fst (if_pos (by simp [detached]))
    rw [after]
    have sound := inv.sound.change at' (t := { r.state.info b with cancelstate := false, retval := v, state := .exited })
      (e := r.state.pthreadsExited + 1) (j := r.state.pthreadsTobejoined) rfl (by simp) (by simp [detached, toNat_beq])
      (by simp [detached, toNat_beq])
    refine inv.step born sound rfl rfl (fun b' other => ?_) ?_ ?_ ?_ ?_
    · simp [setInfo, other]
    · simp [setInfo]
    · simp [setInfo]
    · simpa [setInfo, detached] using claimed
    · simp [detached]

theorem Inv.flag (born : b < r.state.created) (unreaped : r.state.reaped b = false) {t : Info}
    (id : t.id = (r.state.info b).id) (state : t.state = (r.state.info b).state)
    (retval : t.retval = (r.state.info b).retval) : Inv { r with state := r.state.setInfo b t } := by
  obtain ⟨i, at'⟩ := inv.placed born unreaped
  have sound := inv.sound.change at' (t := t) (e := r.state.pthreadsExited) (j := r.state.pthreadsTobejoined) id
    (by rw [state]; exact (inv.sound.held i b at').2.2) (by simp [state]) (by simp [state])
  have alive := inv.alive b born
  have claimed := inv.claimed b born
  refine inv.step born sound rfl rfl (fun b' other => ?_) ?_ (fun v done => ?_) ?_ ?_
  · simp [setInfo, other]
  · simpa [setInfo, state] using alive
  · simpa [setInfo, retval] using inv.retval b v done
  · simpa [setInfo, state] using claimed
  · simp [setInfo, state]

theorem Inv.setcancelstate (active : r.Active (.pthread b)) (enable : Bool) :
    Inv (r.act (.setcancelstate b enable)) := by
  obtain ⟨born, living, -⟩ := active
  have unreaped : r.state.reaped b = false := inv.unreaped born living
  exact inv.flag born unreaped (t := { r.state.info b with cancelstate := enable }) rfl rfl rfl

theorem Inv.pthreadCancel (inside : index id < c.threadsMax) : Inv (r.act (.pthreadCancel id)) := by
  have history : r.act (.pthreadCancel id) = { r with state := (r.state.pthreadCancel id).1 } := by
    unfold act call learn
    split <;> simp_all
  rw [history]
  unfold State.pthreadCancel
  obtain ⟨found, isFound⟩ := ne_none_iff_exists'.mp (pthreadInfoId_inside (s := r.state) inside)
  rw [isFound]
  cases found with
  | none => exact inv
  | some b =>
    obtain ⟨i, at', -⟩ := pthreadInfoId_found isFound
    obtain ⟨born, unreaped, -⟩ := inv.sound.held i b at'
    exact inv.flag born unreaped (t := { r.state.info b with cancelpending := true }) rfl rfl rfl

theorem Inv.detached (at' : r.state.threadTable i = some b) (runs : (r.state.info b).state = .running)
    (unwaited : Run.Unwaited r.state) :
    Inv { r with
      state := r.state.setInfo b { r.state.info b with state := .detached }
      released := update r.released b true } ∧
    Run.Unwaited (r.state.setInfo b { r.state.info b with state := .detached }) := by
  have born := (inv.sound.held i b at').1
  have sound := inv.sound.change at' (t := { r.state.info b with state := .detached }) (e := r.state.pthreadsExited)
    (j := r.state.pthreadsTobejoined) rfl (by simp) (by simp [runs]) (by simp [runs])
  have alive := inv.alive b born
  constructor
  · refine inv.step born sound rfl rfl (fun b' other => ?_) ?_ (fun v done => ?_) ?_ ?_
    · simp [setInfo, other]
    · simpa [setInfo, runs] using alive
    · simpa [setInfo] using inv.retval b v done
    · simp [setInfo]
    · simp [runs]
  · intro k b' waits
    by_cases same : b' = b
    · simp [setInfo, same]
    · simpa [setInfo, same] using unwaited k b' waits

end

theorem running_of (used : p ≠ .free ∧ p ≠ .exited) (undetached : p ≠ .detached) (notJoin : p ≠ .join) : p = .running := by
  cases p <;> simp_all

theorem Inv.pthreadDetach (inv : Inv r) (gentle : r.Gentle (.pthreadDetach id)) : Inv (r.act (.pthreadDetach id)) := by
  obtain ⟨inside, unwaited, notJoin⟩ := gentle
  obtain ⟨found, isFound⟩ := ne_none_iff_exists'.mp (pthreadInfoId_inside (s := r.state) inside)
  unfold act State.call State.pthreadDetach
  dsimp only
  rw [isFound]
  cases found with
  | none => exact (inv.pthreadReap unwaited).1
  | some b =>
    obtain ⟨i, at', -, used, notExited⟩ := pthreadInfoId_found isFound
    obtain ⟨born, unreaped, -⟩ := inv.sound.held i b at'
    dsimp only
    by_cases detached : (r.state.info b).state = .detached
    · rw [if_pos detached]
      exact (inv.pthreadReap unwaited).1
    · rw [if_neg detached]
      have runs := running_of ⟨used, notExited⟩ detached (notJoin b isFound)
      obtain ⟨kept, still⟩ := inv.detached at' runs unwaited
      have reaped := (kept.pthreadReap still).1
      simpa only [learn, isFound] using reaped

theorem Inv.join (inv : Inv r) (at' : r.state.threadTable i = some b) (isJoin : (r.state.info b).state = .join)
    (unwaited : Run.Unwaited r.state) (alone : ∀ k, r.state.joining k ≠ some b) (j : Caller) :
    Inv { r with
      state := (r.state.joined b).1
      released := update r.released b true
      joins := (j, b, (r.state.info b).retval) :: r.joins } := by
  obtain ⟨born, unreaped, -⟩ := inv.sound.held i b at'
  have sound := inv.sound.change at' (t := { r.state.info b with state := .exited }) (e := r.state.pthreadsExited + 1)
    (j := r.state.pthreadsTobejoined - 1) rfl (by simp) (by simp [isJoin]) (by simp [isJoin])
  have dead : r.done b ≠ none := fun living => by simpa [isJoin] using (inv.alive b born).mp living
  obtain ⟨v, done⟩ := ne_none_iff_exists'.mp dead
  have value := inv.retval b v done
  have kept : Inv { r with
      state := { r.state.setInfo b { r.state.info b with state := .exited } with
        pthreadsExited := r.state.pthreadsExited + 1, pthreadsTobejoined := r.state.pthreadsTobejoined - 1 }
      released := update r.released b true } := by
    refine inv.step born sound rfl rfl (fun b' other => ?_) ?_ (fun v done => ?_) ?_ ?_
    · simp [setInfo, other]
    · simp [setInfo, done]
    · simpa [setInfo] using inv.retval b v done
    · simp [setInfo]
    · simp [isJoin]
  have listed : Inv { r with
      state := { r.state.setInfo b { r.state.info b with state := .exited } with
        pthreadsExited := r.state.pthreadsExited + 1, pthreadsTobejoined := r.state.pthreadsTobejoined - 1 }
      released := update r.released b true
      joins := (j, b, (r.state.info b).retval) :: r.joins } := by
    refine { kept with joined := fun k b' w mem => ?_, once := ?_ }
    · rcases mem_cons.mp mem with same | earlier
      · obtain ⟨-, rfl, rfl⟩ : k = j ∧ b' = b ∧ w = (r.state.info b).retval := by simpa using same
        exact ⟨born, by simp [setInfo], done.trans (congrArg some value.symm)⟩
      · exact kept.joined k b' w earlier
    · refine nodup_cons.mpr ⟨fun mem => ?_, inv.once⟩
      obtain ⟨⟨k, b', w⟩, earlier, same⟩ := mem_map.mp mem
      obtain rfl : b' = b := same
      have gone := (inv.joined k b' w earlier).2.1
      exact absurd (isJoin.symm.trans gone) (by decide)
  have still : Unwaited { r.state.setInfo b { r.state.info b with state := .exited } with
      pthreadsExited := r.state.pthreadsExited + 1, pthreadsTobejoined := r.state.pthreadsTobejoined - 1 } := by
    intro k b' waits
    have other : b' ≠ b := by
      rintro rfl
      exact alone k waits
    simpa [setInfo, other] using unwaited k b' waits
  exact (listed.pthreadReap still).1

theorem Reaps.found (reaps : Reaps s s') (found : s'.pthreadInfoId id = some (some b)) :
    s.pthreadInfoId id = some (some b) := by
  unfold pthreadInfoId at found ⊢
  split at found
  · next inside =>
    rcases reaps.slot ⟨index id, inside⟩ with same | ⟨empty, -⟩
    · rw [same, reaps.info] at found
      rw [dif_pos inside]
      exact found
    · rw [empty] at found
      cases found
  · cases found

theorem Inv.pthreadJoin (inv : Inv r) (gentle : r.Gentle (.pthreadJoin j id)) : Inv (r.act (.pthreadJoin j id)) := by
  obtain ⟨inside, unwaited, alone⟩ := gentle
  obtain ⟨reaped, reaps⟩ := inv.pthreadReap unwaited
  obtain ⟨found, isFound⟩ := ne_none_iff_exists'.mp (pthreadInfoId_inside (s := r.state.pthreadReap) inside)
  unfold act State.call State.pthreadJoin
  dsimp only
  rw [isFound]
  cases found with
  | none => exact reaped
  | some b =>
    obtain ⟨i, at', -, used, notExited⟩ := pthreadInfoId_found isFound
    obtain ⟨born, unreaped, -⟩ := reaped.sound.held i b at'
    dsimp only
    by_cases self : j.info = some b
    · rw [if_pos self]
      exact reaped
    · rw [if_neg self]
      cases state : (r.state.pthreadReap.info b).state with
      | free | detached | exited => exact reaped
      | running => exact reaped.wait fun b' same => some.inj same ▸ ⟨born, unreaped⟩
      | join =>
        have nobody : ∀ k, r.state.pthreadReap.joining k ≠ some b := by
          rw [reaps.joining]
          exact alone b (reaps.found isFound) (by rwa [reaps.info] at state)
        exact reaped.join at' state (reaps.unwaited unwaited) nobody j

theorem Inv.joinWake (inv : Inv r) {released : Bool} (waits : r.state.joining j ≠ none)
    (gentle : r.Gentle (.joinWake j released)) : Inv (r.act (.joinWake j released)) := by
  obtain ⟨b, waits⟩ := ne_none_iff_exists'.mp waits
  obtain ⟨born, unreaped⟩ := inv.sound.waiting j b waits
  obtain ⟨i, at'⟩ := inv.placed born unreaped
  have left := inv.wait (j := j) (b := none) fun _ same => by cases same
  have skip : (if r.state.reaped b then r.state.breaks else r.state) = r.state := if_neg (by simp [unreaped])
  unfold act State.call State.joinWake
  dsimp only
  rw [waits]
  dsimp only
  rw [skip]
  by_cases stays : (r.state.info b).state = .running ∧ (released && r.state.checkforcancel j) = false
  · rw [if_pos stays]
    exact inv
  · rw [if_neg stays]
    by_cases isJoin : (r.state.info b).state = .join
    · rw [if_pos isJoin]
      cases cancelled : released && r.state.checkforcancel j with
      | true => exact left
      | false =>
        obtain ⟨unwaited, alone⟩ := gentle b waits isJoin cancelled
        refine left.join at' isJoin (fun k b' waits' => ?_) (fun k waits' => ?_) j
        · by_cases same : k = j
          · simp [same] at waits'
          · exact unwaited k b' (by simpa [same] using waits')
        · by_cases same : k = j
          · simp [same] at waits'
          · exact alone k same (by simpa [same] using waits')
    · rw [if_neg isJoin]
      exact left

theorem Inv.pthreadCreate (inv : Inv r) {joinable memory : Bool} (gentle : r.Gentle (.pthreadCreate joinable memory)) :
    Inv (r.act (.pthreadCreate joinable memory)) := by
  cases memory with
  | false => exact inv
  | true =>
    obtain ⟨unwaited, new⟩ := gentle rfl
    obtain ⟨reaped, reaps⟩ := inv.pthreadReap unwaited
    unfold act State.call State.pthreadCreate
    dsimp only
    rw [if_pos rfl]
    cases found : r.state.pthreadReap.freeSlot c.threadsMax r.state.pthreadReap.threadInfoNext with
    | none => exact reaped
    | some i =>
      have fresh : ∀ b < r.state.pthreadReap.created, (r.state.pthreadReap.info b).id ≠ r.state.pthreadReap.nextId i := by
        rw [reaps.created, reaps.info, nextId, reaps.cookie]
        exact new i found
      have sound := reaped.sound.enter (freeSlot_some _ found) joinable fresh
      have created : (r.state.pthreadReap.enter i joinable).created = r.state.created + 1 := congrArg (· + 1) reaps.created
      have older : ∀ {b}, b < r.state.created → (r.state.pthreadReap.enter i joinable).info b = r.state.info b := by
        intro b before
        rw [← reaps.info]
        refine update_of_ne ?_ ..
        rw [reaps.created]
        omega
      have newer : (r.state.pthreadReap.enter i joinable).info r.state.created =
          ⟨if joinable then .running else .detached, r.state.pthreadReap.nextId i, 0, false, true⟩ := by
        rw [← reaps.created]
        exact update_self ..
      have unborn := inv.unborn r.state.created le_rfl
      show Inv { r with
        state := r.state.pthreadReap.enter i joinable
        released := update r.released r.state.created (!joinable) }
      refine ⟨sound, fun b born => ?_, fun b v done => ?_, fun b young => ?_, fun b born => ?_, fun k b v mem => ?_, inv.once⟩
      · have born : b < r.state.created + 1 := created ▸ born
        by_cases last : b = r.state.created
        · show r.done b = none ↔ _
          rw [last, newer]
          cases joinable <;> simp [unborn]
        · rw [older (show b < r.state.created by omega)]
          exact inv.alive b (by omega)
      · have old : b < r.state.created := by
          by_contra young
          exact absurd (done.symm.trans (inv.unborn b (Nat.le_of_not_lt young))) (by simp)
        rw [older old]
        exact inv.retval b v done
      · have young : r.state.created + 1 ≤ b := created ▸ young
        exact inv.unborn b (by omega)
      · have born : b < r.state.created + 1 := created ▸ born
        by_cases last : b = r.state.created
        · show update r.released r.state.created (!joinable) b = false ↔ _
          rw [last, newer, update_self]
          cases joinable <;> simp
        · rw [older (show b < r.state.created by omega)]
          show update r.released r.state.created (!joinable) b = false ↔ _
          rw [update_of_ne last]
          exact inv.claimed b (by omega)
      · obtain ⟨was, gone, done⟩ := inv.joined k b v mem
        refine ⟨created ▸ Nat.lt_succ_of_lt was, ?_, done⟩
        rwa [older was]

theorem Inv.act (inv : Inv r) {a : Act} (enabled : r.Enabled a) (gentle : r.Gentle a) : Inv (r.act a) := by
  cases a with
  | pthreadCreate joinable memory => exact inv.pthreadCreate gentle
  | pthreadExit b v => exact inv.pthreadExit enabled v
  | pthreadJoin j id => exact inv.pthreadJoin gentle
  | joinWake j released => exact inv.joinWake enabled gentle
  | pthreadDetach id => exact inv.pthreadDetach gentle
  | pthreadCancel id => exact inv.pthreadCancel gentle
  | setcancelstate b enable => exact inv.setcancelstate enabled enable

/-- The runs in which every act meets `Ok`. -/
def machine (c : Config) (Ok : Run c → Act → Prop) : Machine (Run c) :=
  .guided (fun r => r = Run.initial c) (fun r a => r.Enabled a ∧ Ok r a) Run.act

theorem reach_inv (reach : (machine c Run.Gentle).Reach r) : Inv r := by
  refine reach.kept (P := Inv) ?_ fun r a inv ok => inv.act ok.1 ok.2
  rintro _ rfl
  exact .initial

/-- The books are right: the counters count the slots; a thread that has exited and was joined or
detached is in state `EXITED` until it is reaped; the value of a thread goes to one joiner at most;
a thread that is joined is not reaped under its joiner; and an id leads to the one thread it was given to. -/
structure Run.Accounted (r : Run c) : Prop where
  whole : r.state.broken = false
  count : r.state.pthreadCount = r.state.occupied
  exited : r.state.pthreadsExited = r.state.number .exited
  tobejoined : r.state.pthreadsTobejoined = r.state.number .join
  settled : ∀ b < r.state.created, r.done b ≠ none → r.released b = true →
    r.state.reaped b = true ∨ (r.state.info b).state = .exited
  value : ∀ j b v, (j, b, v) ∈ r.joins → r.done b = some v
  once : (r.joins.map (·.2.1)).Nodup
  joinee : ∀ j b, r.state.joining j = some b → r.state.reaped b = false
  known : ∀ b < r.state.created, index (r.state.info b).id < c.threadsMax
  found : ∀ id b, r.state.pthreadInfoId id = some (some b) →
    (r.state.info b).id = id ∧ ∀ b' < r.state.created, (r.state.info b').id = id → b' = b

/-- A call that disposes of dead threads. -/
def Act.reaps : Act → Bool
  | .pthreadCreate _ memory => memory
  | .pthreadJoin .. | .pthreadDetach _ => true
  | .pthreadExit .. | .joinWake .. | .pthreadCancel _ | .setcancelstate .. => false

theorem Inv.accounted (inv : Inv r) : r.Accounted where
  whole := inv.sound.whole
  count := inv.sound.count
  exited := inv.sound.exited
  tobejoined := inv.sound.tobejoined
  settled b born dead released := by
    cases reaped : r.state.reaped b with
    | true => exact .inl rfl
    | false =>
      obtain ⟨i, at'⟩ := inv.placed born reaped
      have used := (inv.sound.held i b at').2.2
      have alive := (inv.alive b born).not.mp dead
      have claimed := (inv.claimed b born).not.mp (by simp [released])
      refine .inr ?_
      cases state : (r.state.info b).state <;> simp_all
  value j b v mem := (inv.joined j b v mem).2.2
  once := inv.once
  joinee j b waits := (inv.sound.waiting j b waits).2
  known := inv.sound.ranged
  found id b found := by
    obtain ⟨i, at', same, -⟩ := pthreadInfoId_found found
    have born := (inv.sound.held i b at').1
    exact ⟨same, fun b' born' same' => inv.sound.unique b' b born' born (same'.trans same.symm)⟩

theorem Reaps.takes (sound : Sound s) (unwaited : Run.Unwaited s) (born : b < s.created)
    (gone : (s.info b).state = .exited) : s.pthreadReap.reaped b = true := by
  obtain ⟨after, reaps, clear⟩ := sound.pthreadReap unwaited
  by_contra alive
  obtain ⟨i, at'⟩ := after.placed b (reaps.created ▸ born) (Bool.eq_false_iff.mpr alive)
  refine clear i ?_
  rw [phase_of at', reaps.info, gone]

theorem pthreadReap_kept (dead : s.reaped b = true) : s.pthreadReap.reaped b = true := by
  have once : ∀ {s : State c} (i), s.reaped b = true → (s.reapAt i).reaped b = true := by
    intro s i dead
    unfold reapAt
    split
    · split
      · exact dead
      · split
        · next b' _ _ =>
          by_cases same : b = b'
          · simp [same]
          · simpa [same] using dead
        · exact dead
    · exact dead
  have all : ∀ (l : List (Fin c.threadsMax)) {s : State c}, s.reaped b = true → (l.foldl reapAt s).reaped b = true := by
    intro l
    induction l with
    | nil => exact id
    | cons i l ih => exact fun dead => ih (once i dead)
  exact all _ dead

theorem Inv.reaps (inv : Inv r) {a : Act} (gentle : r.Gentle a) (reaping : a.reaps = true) (born : b < r.state.created)
    (gone : (r.state.info b).state = .exited) : (r.state.call a).1.reaped b = true := by
  cases a with
  | pthreadCreate joinable memory =>
    obtain rfl : memory = true := reaping
    have taken := Reaps.takes inv.sound (gentle rfl).1 born gone
    simp only [State.call, State.pthreadCreate, if_true]
    split <;> exact taken
  | pthreadJoin j id =>
    have taken := Reaps.takes inv.sound gentle.2.1 born gone
    simp only [State.call, State.pthreadJoin]
    split
    · exact taken
    · exact taken
    · split
      · exact taken
      · split
        any_goals exact taken
        exact pthreadReap_kept taken
  | pthreadDetach id =>
    obtain ⟨inside, unwaited, notJoin⟩ := gentle
    obtain ⟨found, isFound⟩ := ne_none_iff_exists'.mp (pthreadInfoId_inside (s := r.state) inside)
    simp only [State.call, State.pthreadDetach]
    rw [isFound]
    cases found with
    | none => exact Reaps.takes inv.sound unwaited born gone
    | some b' =>
      obtain ⟨i, at', -, used, notExited⟩ := pthreadInfoId_found isFound
      dsimp only
      split
      · exact Reaps.takes inv.sound unwaited born gone
      · next undetached =>
        have runs := running_of ⟨used, notExited⟩ undetached (notJoin b' isFound)
        obtain ⟨kept, still⟩ := inv.detached at' runs unwaited
        have other : b ≠ b' := by
          rintro rfl
          exact notExited gone
        exact Reaps.takes kept.sound still born (by simpa [setInfo, other] using gone)
  | pthreadExit | joinWake | pthreadCancel | setcancelstate => cases reaping

/-- In every run of gentle calls the books are right, and every call that reaps disposes of all the
threads in state `EXITED`. -/
theorem pthread_accounted (reach : (machine c Run.Gentle).Reach r) : r.Accounted ∧
    ∀ a, r.Enabled a → r.Gentle a → a.reaps = true → ∀ b < r.state.created, (r.state.info b).state = .exited →
      (r.act a).state.reaped b = true := by
  have inv := reach_inv reach
  refine ⟨inv.accounted, fun a _ gentle reaping b born gone => ?_⟩
  have same : (r.act a).state = (r.state.call a).1 := by
    unfold Run.act Run.learn
    split
    any_goals rfl
    split <;> rfl
  rw [same]
  exact inv.reaps gentle reaping born gone

/-- The smallest table. -/
def Config.small : Config := ⟨64, by decide, by decide⟩

/-- A joinable thread exits. -/
def exitedThread : Run .small := ((Run.initial .small).act (.pthreadCreate true true)).act (.pthreadExit 0 7)

theorem pthread_accounted_exited : exitedThread.state.pthreadsTobejoined = exitedThread.state.number .join ∧
    exitedThread.state.pthreadsTobejoined = 1 := by
  have gentle : (Run.initial .small).Gentle (.pthreadCreate true true) := by
    intro _
    exact ⟨fun _ _ waits => (Option.some_ne_none _ waits.symm).elim, fun _ _ b born => absurd born (Nat.not_lt_zero b)⟩
  have reach : (machine .small Run.Gentle).Reach exitedThread := by
    refine .next (.next (.start rfl) ⟨.pthreadCreate true true, ⟨trivial, gentle⟩, rfl⟩)
      ⟨.pthreadExit 0 7, ⟨⟨?_, ?_, ?_⟩, trivial⟩, rfl⟩
    · decide +kernel
    · decide +kernel
    · decide +kernel
  exact ⟨(pthread_accounted reach).1.tobejoined, by decide +kernel⟩

/-- Detached after its exit, a thread is left in state `DETACHED`, and is never reaped. -/
theorem detached_lost : ¬ ∀ r : Run .small, (machine .small fun _ _ => True).Reach r → r.Accounted := by
  intro always
  have reach : (machine .small fun _ _ => True).Reach (exitedThread.act (.pthreadDetach 0x800)) := by
    refine .next (.next (.next (.start rfl) ⟨.pthreadCreate true true, ⟨trivial, trivial⟩, rfl⟩)
      ⟨.pthreadExit 0 7, ⟨⟨?_, ?_, ?_⟩, trivial⟩, rfl⟩) ⟨.pthreadDetach 0x800, ⟨trivial, trivial⟩, rfl⟩
    · decide +kernel
    · decide +kernel
    · decide +kernel
  rcases (always _ reach).settled 0 (by decide +kernel) (by decide +kernel) (by decide +kernel) with reaped | exited
  · exact absurd reaped (by decide +kernel)
  · exact absurd exited (by decide +kernel)

end Ecos.Posix.Pthread
