import Ecos.Fileio.FdCounts

namespace Ecos.Fileio.Fd.State
open Function State File
variable {c : Config} {T : Type*} [DecidableEq T] [Fintype T] {s : State c T} {t : T} {reply : Option Errno} {e : Act c T}
  {i j : Fin c.nfile} {fd : Fin c.nfd}

/-- The use counts are the numbers of references; a file has been closed once for each time it has been opened,
unless it is still referred to; and descriptors lead to files that exist. -/
def Correct (s : State c T) : Prop :=
  (∀ i, (s.file i).alloc = true → (s.file i).ucount.toNat = s.entries i + s.gets i + s.middle i) ∧
    (∀ i, s.opens i = s.closes i + if 0 < s.refs i then 1 else 0) ∧
    ∀ fd i, s.desc fd = .file i → (s.file i).alloc = true

/-- Between the two states `fo_close` is called for the files that lose their last reference, and for no others. -/
def ClosesLast (s s' : State c T) : Prop :=
  ∀ i, s'.closes i = s.closes i + if 0 < s.refs i ∧ s'.refs i = 0 then 1 else 0

theorem Account.allocated (account : s.Account i) (some : 0 < (s.file i).ucount.toNat) : (s.file i).alloc = true := by
  have owner := account.owner
  cases alloc : (s.file i).alloc with
  | false =>
    rw [alloc, Bool.toNat_false] at owner
    omega
  | true => rfl

theorem Account.entry (account : s.Account i) (entry : s.desc fd = .file i) :
    0 < s.entries i ∧ 0 < (s.file i).ucount.toNat := by
  have some : 0 < s.entries i := tally_pos (t := fd) (by simp [entry])
  have count := account.count
  exact ⟨some, by omega⟩

theorem Account.open_iff (account : s.Account i) : s.opens i = s.closes i + if 0 < s.refs i then 1 else 0 := by
  obtain ⟨count, owner, log⟩ := account
  have le := Bool.toNat_le (s.file i).alloc
  by_cases some : 0 < s.refs i
  · rw [if_pos some]
    rw [refs] at some
    omega
  · rw [if_neg some]
    rw [refs] at some
    omega

theorem Account.correct (account : ∀ i, s.Account i) : s.Correct :=
  ⟨fun i _ => (account i).count, fun i => (account i).open_iff,
    fun _ i entry => (account i).allocated ((account i).entry entry).2⟩

theorem Start.account (start : s.Start) (i : Fin c.nfile) : s.Account i := by
  obtain ⟨desc, file, _, thread, opens, closes⟩ := start
  have none : ∀ f : Point c → Bool, f (.user ⟨0, none⟩) = false → tally f s.thread = 0 :=
    fun f idle => tally_eq_zero fun t => by rw [thread t, idle]
  refine ⟨?_, ?_, ?_⟩
  · rw [file, entries, gets, middle, none _ rfl, none _ rfl, tally_eq_zero fun fd => by rw [desc fd]; rfl]
    rfl
  · rw [file, opening, pending, closing, none _ rfl, none _ rfl, none _ rfl]
    rfl
  · rw [file, opens, closes, pending, none _ rfl]
    rfl

theorem fpGet_log {found : Fin c.nfile → Point c} :
    (s.fpGet t fd found).closes = s.closes ∧ (s.fpGet t fd found).opens = s.opens := by
  unfold fpGet
  split <;> exact ⟨rfl, rfl⟩

theorem enter_log {call : Call c} : (s.enter t call).closes = s.closes ∧ (s.enter t call).opens = s.opens := by
  cases call with
  | openFile read write =>
    dsimp only [enter]
    repeat' split
    all_goals exact ⟨rfl, rfl⟩
  | dup2 fd fd2 =>
    dsimp only [enter]
    repeat' split
    · exact ⟨rfl, rfl⟩
    · exact fpGet_log
    · exact ⟨rfl, rfl⟩
  | fcntl fd dupfd => cases dupfd <;> exact fpGet_log
  | close fd => exact fpGet_log
  | dup fd => exact fpGet_log
  | use fd direction => exact fpGet_log

theorem advance_log (i : Fin c.nfile) :
    ((s.advance t reply).closes i = s.closes i ∧ s.opens i ≤ (s.advance t reply).opens i) ∨
      ((s.advance t reply).closes i = s.closes i + 1 ∧ (s.advance t reply).opens i = s.opens i) := by
  unfold advance
  cases s.thread t with
  | enter call =>
    have same : (s.enter t call).closes = s.closes ∧ (s.enter t call).opens = s.opens := enter_log
    exact .inl ⟨congrFun same.1 i, (congrFun same.2 i).ge⟩
  | openAlloc fd read write =>
    dsimp only [openAlloc]
    split <;> exact .inl ⟨rfl, le_rfl⟩
  | openLookup fd j read write =>
    dsimp only
    split <;> exact .inl ⟨rfl, le_rfl⟩
  | openFs fd j read write =>
    cases reply with
    | some error => exact .inl ⟨rfl, le_rfl⟩
    | none =>
      refine .inl ⟨rfl, ?_⟩
      dsimp only [opened, goto]
      by_cases same : i = j
      · subst same
        rw [update_self]
        omega
      · exact (update_of_ne same ..).ge
  | dupAlloc j =>
    dsimp only [dupAlloc]
    split <;> exact .inl ⟨rfl, le_rfl⟩
  | fcntlAlloc j low =>
    dsimp only [fcntlAlloc]
    split <;> exact .inl ⟨rfl, le_rfl⟩
  | dec j caller =>
    dsimp only [dec]
    split
    · dsimp only [goto]
      by_cases same : i = j
      · subst same
        exact .inr ⟨update_self .., rfl⟩
      · exact .inl ⟨update_of_ne same .., le_rfl⟩
    · exact .inl ⟨rfl, le_rfl⟩
  | back caller error => cases caller <;> exact .inl ⟨rfl, le_rfl⟩
  | _ => exact .inl ⟨rfl, le_rfl⟩

theorem closesLast (account : ∀ i, s.Account i) (enabled : s.Enabled e) (sound : s.Sound e) : s.ClosesLast (s.act e) := by
  intro i
  have before := (account i).open_iff
  have after := (Account.act account enabled sound i).open_iff
  have log : ((s.act e).closes i = s.closes i ∧ s.opens i ≤ (s.act e).opens i) ∨
      ((s.act e).closes i = s.closes i + 1 ∧ (s.act e).opens i = s.opens i) := by
    cases e with
    | call t call => exact .inl ⟨rfl, le_rfl⟩
    | go t reply => exact advance_log i
  split_ifs at before after ⊢ <;> omega

theorem enter_gets {call : Call c} (gets : call.gets = some fd) : ∃ found, s.enter t call = s.fpGet t fd found := by
  cases call with
  | openFile read write => cases gets
  | dup2 fd' fd2 =>
    by_cases does : fd2 ≠ fd'.val ∧ 0 ≤ fd2 ∧ fd2 < c.nfile
    · obtain rfl : fd' = fd := by simpa [Call.gets, does] using gets
      rw [enter, if_neg does.1, dif_pos does.2]
      exact ⟨_, rfl⟩
    · simp [Call.gets, if_neg does] at gets
  | fcntl fd' dupfd =>
    obtain rfl : fd' = fd := by simpa [Call.gets] using gets
    cases dupfd <;> exact ⟨_, rfl⟩
  | close fd' =>
    obtain rfl : fd' = fd := by simpa [Call.gets] using gets
    exact ⟨_, rfl⟩
  | dup fd' =>
    obtain rfl : fd' = fd := by simpa [Call.gets] using gets
    exact ⟨_, rfl⟩
  | use fd' direction =>
    obtain rfl : fd' = fd := by simpa [Call.gets] using gets
    exact ⟨_, rfl⟩

section
variable (account : ∀ i, s.Account i)
include account

theorem enter_full {call : Call c} (gets : call.gets = some fd) (entry : s.desc fd = .file i)
    (full : ¬ (s.file i).ucount.toNat + 1 < 2 ^ 16) : ¬ (s.enter t call).Correct := by
  intro correct
  obtain ⟨found, same⟩ := enter_gets (s := s) (t := t) gets
  obtain ⟨refers, some⟩ := (account i).entry entry
  simp only [same, fpGet, entry] at correct
  have count := correct.1 i (by simpa [goto, setFile, raise] using (account i).allocated some)
  have zero : ((s.setFile i (s.file i).raise).goto t (found i)).file i = (s.file i).raise := update_self ..
  have kept : ((s.setFile i (s.file i).raise).goto t (found i)).entries i = s.entries i := rfl
  rw [zero, kept, raise_full full] at count
  omega

theorem raised_full {who : Assigner} (full : ¬ (s.file i).ucount.toNat + 1 < 2 ^ 16) :
    ¬ ((s.setFile i (s.file i).raise).goto t (.store fd i who)).Correct := by
  intro correct
  have some : 0 < (s.file i).ucount.toNat := by omega
  have count := correct.1 i (by simpa [goto, setFile, raise] using (account i).allocated some)
  have zero : ((s.setFile i (s.file i).raise).goto t (.store fd i who)).file i = (s.file i).raise := update_self ..
  have mine : 0 < ((s.setFile i (s.file i).raise).goto t (.store fd i who)).middle i :=
    tally_pos (t := t) (by simp [goto, Point.middle])
  rw [zero, raise_full full] at count
  omega

theorem dupAlloc_none (here : s.thread t = .dupAlloc i) (none : s.freeDesc 0 = none) :
    ¬ (s.dupAlloc t i).Correct := by
  intro correct
  have held := (account i).held (t := t) (by simp [here, Point.holds])
  simp only [dupAlloc, none] at correct
  have count := correct.1 i ((account i).allocated held)
  obtain ⟨g, m, _⟩ := goto_counts (i := i) here (.user ⟨-1, some .emfile⟩)
  have before := (account i).count
  simp only [Point.holds, Point.middle, decide_true, Bool.toNat_true, Bool.toNat_false] at g m
  change (s.file i).ucount.toNat = s.entries i + _ + _ at count
  omega

theorem redirected_over {s' : State c T} {p q : Point c} {d : Desc c} (here : s.thread t = p)
    (entry : s.desc fd = .file i) (thread : s'.thread = s.thread) (desc : s'.desc = update s.desc fd d)
    (file : s'.file = s.file) (count : (decide (d = .file i)).toNat + (q.holds i).toNat + (q.middle i).toNat =
      (p.holds i).toNat + (p.middle i).toNat) : ¬ (s'.goto t q).Correct := by
  intro correct
  have held := ((account i).entry entry).2
  have after := correct.1 i (by change (s'.file i).alloc = true; rw [file]; exact (account i).allocated held)
  obtain ⟨g, m, _⟩ := goto_counts (i := i) (thread ▸ here : s'.thread t = p) q
  have gets : s'.gets i = s.gets i := by rw [gets, thread, gets]
  have middle : s'.middle i = s.middle i := by rw [middle, thread, middle]
  have entries : s'.entries i = (s.setDesc fd d).entries i := by rw [entries, desc, entries, setDesc]
  have change : (s.setDesc fd d).entries i + (decide (s.desc fd = .file i)).toNat =
      s.entries i + (decide (d = .file i)).toNat := setDesc_entries
  rw [entry, decide_eq_true rfl, Bool.toNat_true] at change
  have before := (account i).count
  change (s'.file i).ucount.toNat = s'.entries i + _ + _ at after
  rw [file] at after
  omega

theorem unsound (bad : ¬ s.Sound e) : ¬ (s.act e).Correct := by
  cases e with
  | call t call => exact absurd trivial bad
  | go t reply =>
    cases here : s.thread t with
    | enter call =>
      simp only [Sound, SoundAt, here] at bad
      push Not at bad
      obtain ⟨fd, i, gets, entry, full⟩ := bad
      simp only [act, advance, here]
      exact enter_full account gets entry (by omega)
    | dupAlloc i =>
      simp only [Sound, SoundAt, here, not_not] at bad
      simp only [act, advance, here]
      exact dupAlloc_none account here bad
    | back caller error =>
      simp only [act, advance, here]
      cases caller with
      | assign fd i who =>
        simp only [Sound, SoundAt, here] at bad
        exact raised_full account bad
      | free fd who =>
        simp only [Sound, SoundAt, here] at bad
        push Not at bad
        obtain ⟨i, entry⟩ := bad
        refine redirected_over account here entry rfl rfl rfl ?_
        rcases who with _ | ⟨_ | _, _⟩ <;> rfl
      | put who => simp [Sound, SoundAt, here] at bad
    | store fd j who =>
      simp only [Sound, SoundAt, here] at bad
      push Not at bad
      obtain ⟨i, entry⟩ := bad
      simp only [act, advance, here]
      refine redirected_over account here entry rfl rfl rfl ?_
      cases who with
      | openFile => simp [Point.holds, Point.middle, Caller.holds]
      | dup r => simp [Point.holds, Point.middle, Caller.holds]
    | _ => simp [Sound, SoundAt, here] at bad

end

/-- The runs in which all steps are sound. -/
def soundSystem (c : Config) (T : Type*) [DecidableEq T] : Machine (State c T) :=
  .guided Start (fun s e => s.Enabled e ∧ s.Sound e) act

theorem Reach.account (reach : (soundSystem c T).Reach s) : ∀ i, s.Account i :=
  reach.kept (fun _ start => start.account) fun _ _ account ok => Account.act account ok.1 ok.2

/-- In every run of any number of threads whose steps are sound, the counts are right, and `fo_close` is called for
the files that lose their last reference. A step that is not sound makes the counts wrong at once. -/
theorem references_counted (reach : (soundSystem c T).Reach s) :
    s.Correct ∧ ∀ e, s.Enabled e → (s.Sound e ↔ (s.act e).Correct) ∧ (s.Sound e → s.ClosesLast (s.act e)) := by
  have account := Reach.account reach
  refine ⟨Account.correct account, fun e enabled => ⟨⟨fun sound => ?_, fun correct => ?_⟩, closesLast account enabled⟩⟩
  · exact Account.correct (Account.act account enabled sound)
  · by_contra bad
    exact unsound account bad correct

/-- One file object, one descriptor, one thread. -/
def least : Config := ⟨1, 1, by decide, by decide⟩

def booted (c : Config) (T : Type*) : State c T where
  desc := fun _ => .null
  file := fun _ => ⟨false, false, false, 0⟩
  fdlock := none
  thread := fun _ => .user ⟨0, none⟩
  opens := fun _ => 0
  closes := fun _ => 0

theorem booted_start : (booted c T).Start := ⟨fun _ => rfl, fun _ => rfl, rfl, fun _ => rfl, fun _ => rfl, fun _ => rfl⟩

/-- The thread calls a function and goes on until it returns. -/
def callThrough (call : Call c) (t : T) (steps : Nat) : List (Act c T) := .call t call :: List.replicate steps (.go t none)

def afterOpen : State least Unit := (callThrough (.openFile true false) () 7).foldl act (booted least Unit)

theorem afterOpen_reached : (soundSystem least Unit).Reach afterOpen := by
  refine Machine.Reach.run (.start booted_start) ?_
  decide

/-- After the first `open` there is one reference. -/
theorem references_counted_opened : afterOpen.Correct ∧ ∃ i, (afterOpen.file i).ucount = 1 :=
  ⟨(references_counted afterOpen_reached).1, ⟨0, by decide⟩, by decide⟩

/-- The only descriptor is duplicated: `dup` fails with `EMFILE` and keeps its reference for ever. -/
theorem dup_keeps_reference : ¬ ∀ (c : Config) (s : State c Unit), (system c Unit).Reach s → s.Correct := by
  intro claim
  have admitted : Machine.Admits Enabled act (booted least Unit)
      (callThrough (.openFile true false) () 7 ++ callThrough (.dup ⟨0, by decide⟩) () 2) := by decide
  have counted := (claim least _ (Machine.Reach.run (.start booted_start) admitted)).1 ⟨0, by decide⟩ (by decide)
  revert counted
  decide

end Ecos.Fileio.Fd.State
