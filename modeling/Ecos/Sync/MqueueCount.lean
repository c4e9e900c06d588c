import Ecos.Sync.Mqueue
import Ecos.Lib.Tally

namespace Ecos
open Function Option MqPhase List

section Lists
variable {busy busy' : Nat → Bool} {priority priority' : Nat → Nat} {e prio : Nat} {l rest : List Nat}

theorem unlinkIdle_some (found : unlinkIdle busy l = some (e, rest)) :
    ∃ front back, l = front ++ e :: back ∧ rest = front ++ back ∧ (∀ x ∈ front, busy x = true) ∧ busy e = false := by
  induction l generalizing rest with
  | nil => simp [unlinkIdle] at found
  | cons x l ih =>
    unfold unlinkIdle at found
    split at found
    · next isBusy =>
      obtain ⟨⟨y, rest'⟩, later, same⟩ := map_eq_some_iff.mp found
      obtain ⟨rfl, rfl⟩ := Prod.mk.inj same
      obtain ⟨front, back, rfl, rfl, passed, idle⟩ := ih later
      refine ⟨x :: front, back, rfl, rfl, fun y mem => ?_, idle⟩
      rcases mem_cons.mp mem with rfl | inFront
      · exact isBusy
      · exact passed y inFront
    · next idle =>
      obtain ⟨rfl, rfl⟩ := Prod.mk.inj (some.inj found)
      exact ⟨[], l, rfl, rfl, by simp, by simpa using idle⟩

theorem unlinkIdle_isSome (left : 0 < l.countP fun x => !busy x) : ∃ found, unlinkIdle busy l = some found := by
  induction l with
  | nil => simp at left
  | cons x l ih =>
    unfold unlinkIdle
    cases isBusy : busy x with
    | true =>
      obtain ⟨⟨y, rest⟩, later⟩ := ih (by simpa [countP_cons, isBusy] using left)
      exact ⟨(y, x :: rest), by simp [later]⟩
    | false => exact ⟨(x, l), by simp⟩

theorem insertByPrio_perm : (insertByPrio priority e prio l).Perm (e :: l) := by
  induction l with
  | nil => exact .refl _
  | cons x l ih =>
    unfold insertByPrio
    split
    · exact .refl _
    · exact (ih.cons x).trans (.swap ..)

theorem countP_congr_idle (same : ∀ x ∈ l, busy' x = busy x) :
    (l.countP fun x => !busy' x) = l.countP fun x => !busy x := by
  refine countP_congr fun x mem => ?_
  rw [same x mem]

theorem countP_freed (nodup : l.Nodup) (mem : e ∈ l) (was : busy e = true) (now : busy' e = false)
    (same : ∀ x, x ≠ e → busy' x = busy x) : (l.countP fun x => !busy' x) = (l.countP fun x => !busy x) + 1 := by
  obtain ⟨front, back, rfl⟩ := append_of_mem mem
  have once := nodup_middle.mp nodup
  have apart : ∀ x ∈ front ++ back, x ≠ e := fun x inRest eq => (nodup_cons.mp once).1 (eq ▸ inRest)
  have first := countP_congr_idle fun x inFront => same x (apart x (mem_append_left _ inFront))
  have last := countP_congr_idle fun x inBack => same x (apart x (mem_append_right _ inBack))
  simp only [countP_append, countP_cons, first, last, was, now]
  simp
  omega

end Lists

namespace MqPhase
variable {B : Type}

/-- The entry a call has in hand: on `q` while it puts, on the free list while it gets. -/
def putting : MqPhase B → Option Nat
  | .putCopy e _ | .putClear e => some e
  | _ => none

def getting : MqPhase B → Option Nat
  | .getCopy e | .getClear e => some e
  | _ => none

def Holds (p : MqPhase B) (e : Nat) : Prop := p.putting = some e ∨ p.getting = some e

/-- A full entry has been promised to the call, or the call has yet to announce one. -/
def owesFull : MqPhase B → Bool
  | .getFull | .putPost => true
  | _ => false

def owesFree : MqPhase B → Bool
  | .putFree _ | .getPost => true
  | _ => false

end MqPhase

namespace Mqueue
variable {T B : Type} [DecidableEq T] [Fintype T]

/-- The semaphores count the entries of their lists that are not busy, but for those
promised and those not yet announced; and a busy entry in hand is that of one call. -/
structure Counted (n : Nat) (s : Mqueue T B) : Prop where
  quiet : s.fault = false
  parts : (s.q ++ s.freelist).Perm (List.range n)
  full : (s.q.countP fun e => !s.busy e) = s.getsem + tally MqPhase.owesFull s.phase
  free : (s.freelist.countP fun e => !s.busy e) = s.putsem + tally MqPhase.owesFree s.phase
  putting : ∀ t e, (s.phase t).putting = some e → e ∈ s.q ∧ s.busy e = true
  getting : ∀ t e, (s.phase t).getting = some e → e ∈ s.freelist ∧ s.busy e = true
  alone : ∀ t u e, (s.phase t).Holds e → (s.phase u).Holds e → t = u

variable {n : Nat} {s : Mqueue T B} {t : T}

theorem Counted.initial (n : Nat) (entry : Nat → Qentry B) : Counted n (initial n entry : Mqueue T B) where
  quiet := rfl
  parts := .refl _
  full := by
    rw [tally_eq_zero fun _ => rfl]
    rfl
  free := by
    have all : ((List.range n).countP fun e => !(Mqueue.initial n entry : Mqueue T B).busy e) = (List.range n).length :=
      countP_eq_length.mpr fun _ _ => rfl
    rw [tally_eq_zero fun _ => rfl]
    exact all.trans length_range
  putting t e held := by simp [Mqueue.initial, MqPhase.putting] at held
  getting t e held := by simp [Mqueue.initial, MqPhase.getting] at held
  alone t u e held := by simp [Mqueue.initial, MqPhase.Holds, MqPhase.putting, MqPhase.getting] at held

section
variable (counted : Counted n s)
include counted

theorem Counted.nodup : (s.q ++ s.freelist).Nodup :=
  counted.parts.nodup_iff.mpr nodup_range

theorem Counted.busy_of_holds {e : Nat} (holds : (s.phase t).Holds e) : s.busy e = true := by
  rcases holds with put | get
  · exact (counted.putting t e put).2
  · exact (counted.getting t e get).2

theorem Counted.move {s' : Mqueue T B} {p : MqPhase B} (phase : s'.phase = update s.phase t p) (quiet : s'.fault = s.fault)
    (parts : (s'.q ++ s'.freelist).Perm (s.q ++ s.freelist))
    (full : (s'.q.countP fun e => !s'.busy e) + s.getsem + ((s.phase t).owesFull).toNat =
      (s.q.countP fun e => !s.busy e) + s'.getsem + p.owesFull.toNat)
    (free : (s'.freelist.countP fun e => !s'.busy e) + s.putsem + ((s.phase t).owesFree).toNat =
      (s.freelist.countP fun e => !s.busy e) + s'.putsem + p.owesFree.toNat)
    (putting : ∀ e, p.putting = some e → e ∈ s'.q ∧ s'.busy e = true)
    (getting : ∀ e, p.getting = some e → e ∈ s'.freelist ∧ s'.busy e = true)
    (stays : ∀ u e, u ≠ t → (s.phase u).Holds e → (e ∈ s.q → e ∈ s'.q) ∧ (e ∈ s.freelist → e ∈ s'.freelist) ∧
      s'.busy e = true)
    (sole : ∀ u e, u ≠ t → p.Holds e → ¬ (s.phase u).Holds e) : Counted n s' := by
  have others : ∀ u, u ≠ t → s'.phase u = s.phase u := fun u ne => by rw [phase, update_of_ne ne]
  have self : s'.phase t = p := by rw [phase, update_self]
  refine ⟨quiet.trans counted.quiet, parts.trans counted.parts, ?_, ?_, fun u e held => ?_, fun u e held => ?_,
    fun u v e first second => ?_⟩
  · have before := counted.full
    have moved := tally_update owesFull s.phase t p
    rw [phase]
    omega
  · have before := counted.free
    have moved := tally_update owesFree s.phase t p
    rw [phase]
    omega
  · by_cases same : u = t
    · subst same
      exact putting e (self ▸ held)
    · rw [others u same] at held
      obtain ⟨onQ, -, busy⟩ := stays u e same (.inl held)
      exact ⟨onQ (counted.putting u e held).1, busy⟩
  · by_cases same : u = t
    · subst same
      exact getting e (self ▸ held)
    · rw [others u same] at held
      obtain ⟨-, onFree, busy⟩ := stays u e same (.inr held)
      exact ⟨onFree (counted.getting u e held).1, busy⟩
  · by_cases same : u = t
    · subst same
      by_cases other : v = u
      · exact other.symm
      · rw [self] at first
        rw [others v other] at second
        exact absurd second (sole v e other first)
    · rw [others u same] at first
      by_cases other : v = t
      · subst other
        rw [self] at second
        exact absurd first (sole u e same second)
      · rw [others v other] at second
        exact counted.alone u v e first second

theorem Counted.not_holds {e : Nat} (idle : s.busy e = false) (u : T) : ¬ (s.phase u).Holds e := by
  intro holds
  rw [counted.busy_of_holds holds] at idle
  simp at idle

theorem Counted.elsewhere {e : Nat} {front back : List Nat} (split : s.freelist = front ++ e :: back) :
    e ∉ s.q ∧ e ∉ front ++ back := by
  have nodup := counted.nodup
  rw [split, ← append_assoc] at nodup
  have absent := (nodup_cons.mp (nodup_middle.mp nodup)).1
  simpa [mem_append, not_or, and_assoc] using absent

theorem Counted.elsewhere_q {e : Nat} {front back : List Nat} (split : s.q = front ++ e :: back) :
    e ∉ s.freelist ∧ e ∉ front ++ back := by
  have nodup := counted.nodup
  rw [split, append_assoc, cons_append] at nodup
  have absent := (nodup_cons.mp (nodup_middle.mp nodup)).1
  simp only [mem_append, not_or] at absent ⊢
  exact ⟨absent.2.2, absent.1, absent.2.1⟩

theorem Counted.free_idle (owed : (s.phase t).owesFree = true) :
    ∃ e rest, unlinkIdle s.busy s.freelist = some (e, rest) := by
  have owes := tally_pos (f := s.phase) owed
  obtain ⟨⟨e, rest⟩, found⟩ : ∃ found, unlinkIdle s.busy s.freelist = some found :=
    unlinkIdle_isSome (by rw [counted.free]; omega)
  exact ⟨e, rest, found⟩

theorem Counted.full_idle (owed : (s.phase t).owesFull = true) :
    ∃ e rest, unlinkIdle s.busy s.q = some (e, rest) := by
  have owes := tally_pos (f := s.phase) owed
  obtain ⟨⟨e, rest⟩, found⟩ : ∃ found, unlinkIdle s.busy s.q = some found :=
    unlinkIdle_isSome (by rw [counted.full]; omega)
  exact ⟨e, rest, found⟩

end

theorem countP_middle {p : Nat → Bool} {e : Nat} {front back : List Nat} :
    (front ++ e :: back).countP p = (front ++ back).countP p + (p e).toNat := by
  simp only [countP_append, countP_cons]
  cases p e <;> simp only [Bool.toNat_true, Bool.toNat_false, if_true, if_false, Bool.false_eq_true] <;> omega

theorem busy_modify (f : Qentry B → Qentry B) (e x : Nat) :
    (s.modify e f).busy x = if x = e then (f (s.entry e)).busy else s.busy x := by
  by_cases same : x = e <;> simp [busy, modify, same]

theorem countP_modify {f : Qentry B → Qentry B} {e : Nat} {l : List Nat} (absent : e ∉ l) :
    (l.countP fun x => !(s.modify e f).busy x) = l.countP fun x => !s.busy x :=
  countP_congr_idle fun x mem => (busy_modify f e x).trans (if_neg fun same : x = e => absent (same ▸ mem))

/-- An idle entry goes out of a list. -/
theorem countP_taken {f : Qentry B → Qentry B} {e : Nat} {l front back : List Nat} (split : l = front ++ e :: back)
    (idle : s.busy e = false) (absent : e ∉ front ++ back) :
    ((front ++ back).countP fun x => !(s.modify e f).busy x) + 1 = l.countP fun x => !s.busy x := by
  rw [countP_modify absent, split, countP_middle, idle]
  rfl

theorem Counted.insert (counted : Counted n s) {m : Message B} (here : s.phase t = .putFree m) :
    Counted n (s.insert t m) := by
  obtain ⟨e, rest, found⟩ := counted.free_idle (t := t) (by rw [here]; rfl)
  obtain ⟨front, back, split, rfl, -, idle⟩ := unlinkIdle_some found
  obtain ⟨notQ, notRest⟩ := counted.elsewhere split
  simp only [Mqueue.insert, found]
  have busy : ∀ x, (s.modify e fun x => { x with priority := m.prio, busy := true }).busy x = if x = e then true else s.busy x :=
    fun x => busy_modify _ e x
  have placed : (insertByPrio s.priority e m.prio s.q).Perm (e :: s.q) := insertByPrio_perm
  refine counted.move (p := .putCopy e m) rfl rfl ?_ ?_ ?_ ?_ ?_ ?_ ?_
  · calc insertByPrio s.priority e m.prio s.q ++ (front ++ back)
        |>.Perm (e :: s.q ++ (front ++ back)) := placed.append_right _
      _ |>.Perm (s.q ++ e :: (front ++ back)) := perm_middle.symm
      _ |>.Perm (s.q ++ s.freelist) := split ▸ perm_middle.symm.append_left _
  · have first := placed.countP_eq fun x => !(s.modify e fun x => { x with priority := m.prio, busy := true }).busy x
    rw [countP_cons, busy, if_pos rfl, countP_modify notQ] at first
    rw [here]
    exact congrArg (· + s.getsem + 0) first
  · have count := countP_taken (f := fun x => { x with priority := m.prio, busy := true }) split idle notRest
    rw [here, ← count]
    exact Nat.add_right_comm ..
  · intro x held
    obtain rfl : e = x := some.inj held
    exact ⟨placed.mem_iff.mpr (mem_cons_self ..), (busy e).trans (if_pos rfl)⟩
  · intro x held
    simp [MqPhase.getting] at held
  · intro u x ne holds
    have other : x ≠ e := fun same => counted.not_holds idle u (same ▸ holds)
    refine ⟨fun mem => placed.mem_iff.mpr (mem_cons_of_mem _ mem), fun mem => ?_, ?_⟩
    · rw [split] at mem
      simpa [other] using mem
    · exact (busy x).trans ((if_neg other).trans (counted.busy_of_holds holds))
  · intro u x ne held holds
    have same : e = x := by simpa [MqPhase.Holds, MqPhase.putting, MqPhase.getting] using held
    exact counted.not_holds idle u (same ▸ holds)

theorem Counted.unlink (counted : Counted n s) (here : s.phase t = .getFull) : Counted n (s.unlink t) := by
  obtain ⟨e, rest, found⟩ := counted.full_idle (t := t) (by rw [here]; rfl)
  obtain ⟨front, back, split, rfl, -, idle⟩ := unlinkIdle_some found
  obtain ⟨notFree, notRest⟩ := counted.elsewhere_q split
  simp only [Mqueue.unlink, found]
  have busy : ∀ x, (s.modify e fun x => { x with busy := true }).busy x = if x = e then true else s.busy x :=
    fun x => busy_modify _ e x
  refine counted.move (p := .getCopy e) rfl rfl ?_ ?_ ?_ ?_ ?_ ?_ ?_
  · calc front ++ back ++ e :: s.freelist
        |>.Perm (e :: (front ++ back) ++ s.freelist) := perm_middle
      _ |>.Perm (s.q ++ s.freelist) := split ▸ perm_middle.symm.append_right _
  · have count := countP_taken (f := fun x => { x with busy := true }) split idle notRest
    rw [here, ← count]
    exact Nat.add_right_comm ..
  · have first : ((e :: s.freelist).countP fun x => !(s.modify e fun x => { x with busy := true }).busy x) =
        s.freelist.countP fun x => !s.busy x := by
      rw [countP_cons, busy, if_pos rfl, countP_modify notFree]
      rfl
    rw [here]
    exact congrArg (· + s.putsem + 0) first
  · intro x held
    simp [MqPhase.putting] at held
  · intro x held
    obtain rfl : e = x := some.inj held
    exact ⟨mem_cons_self .., (busy e).trans (if_pos rfl)⟩
  · intro u x ne holds
    have other : x ≠ e := fun same => counted.not_holds idle u (same ▸ holds)
    refine ⟨fun mem => ?_, mem_cons_of_mem _, ?_⟩
    · rw [split] at mem
      simpa [other] using mem
    · exact (busy x).trans ((if_neg other).trans (counted.busy_of_holds holds))
  · intro u x ne held holds
    have same : e = x := by simpa [MqPhase.Holds, MqPhase.putting, MqPhase.getting] using held
    exact counted.not_holds idle u (same ▸ holds)

theorem Counted.pass {s' : Mqueue T B} {p : MqPhase B} (counted : Counted n s)
    (phase : s'.phase = update s.phase t p) (quiet : s'.fault = s.fault) (q : s'.q = s.q)
    (freelist : s'.freelist = s.freelist) (busy : s'.busy = s.busy)
    (full : s.getsem + ((s.phase t).owesFull).toNat = s'.getsem + p.owesFull.toNat)
    (free : s.putsem + ((s.phase t).owesFree).toNat = s'.putsem + p.owesFree.toNat)
    (putting : ∀ e, p.putting = some e → (s.phase t).putting = some e)
    (getting : ∀ e, p.getting = some e → (s.phase t).getting = some e) : Counted n s' := by
  refine counted.move phase quiet ?_ ?_ ?_ (fun e held => ?_) (fun e held => ?_) (fun u e _ holds => ?_)
    fun u e ne held holds => ?_
  · rw [q, freelist]
  · rw [q, busy]
    omega
  · rw [freelist, busy]
    omega
  · rw [q, busy]
    exact counted.putting t e (putting e held)
  · rw [freelist, busy]
    exact counted.getting t e (getting e held)
  · rw [q, freelist, busy]
    exact ⟨id, id, counted.busy_of_holds holds⟩
  · exact ne (counted.alone u t e holds (held.imp (putting e) (getting e)))

theorem busy_clear (e x : Nat) : (s.modify e fun x => { x with busy := false }).busy x = if x = e then false else s.busy x :=
  busy_modify _ e x

theorem Counted.putClear (counted : Counted n s) {e : Nat} (here : s.phase t = .putClear e) :
    Counted n ((s.modify e fun x => { x with busy := false }).setPhase t .putPost) := by
  have holds : (s.phase t).Holds e := .inl (by rw [here]; rfl)
  obtain ⟨onQ, wasBusy⟩ := counted.putting t e (by rw [here]; rfl)
  have apart := nodup_append.mp counted.nodup
  have freed := countP_freed apart.1 onQ wasBusy ((busy_clear e e).trans (if_pos rfl))
    fun x ne => (busy_clear e x).trans (if_neg ne)
  have same : (s.freelist.countP fun x => !(s.modify e fun x => { x with busy := false }).busy x) =
      s.freelist.countP fun x => !s.busy x :=
    countP_congr_idle fun x mem => (busy_clear e x).trans (if_neg fun eq : x = e => apart.2.2 e onQ x mem eq.symm)
  refine counted.move (p := .putPost) rfl rfl (.refl _) ?_ ?_ (by simp [MqPhase.putting]) (by simp [MqPhase.getting])
    (fun u x ne held => ⟨id, id, ?_⟩) (by simp [MqPhase.Holds, MqPhase.putting, MqPhase.getting])
  · rw [here]
    exact (congrArg (· + s.getsem + 0) freed).trans (Nat.add_right_comm _ 1 s.getsem)
  · rw [here]
    exact congrArg (· + s.putsem + 0) same
  · have other : x ≠ e := fun eq => ne (counted.alone u t e (eq ▸ held) holds)
    exact (busy_clear e x).trans ((if_neg other).trans (counted.busy_of_holds held))

theorem Counted.getClear (counted : Counted n s) {e : Nat} (here : s.phase t = .getClear e) :
    Counted n ((s.modify e fun x => { x with busy := false }).setPhase t .getPost) := by
  have holds : (s.phase t).Holds e := .inr (by rw [here]; rfl)
  obtain ⟨onFree, wasBusy⟩ := counted.getting t e (by rw [here]; rfl)
  have apart := nodup_append.mp counted.nodup
  have freed := countP_freed apart.2.1 onFree wasBusy ((busy_clear e e).trans (if_pos rfl))
    fun x ne => (busy_clear e x).trans (if_neg ne)
  have same : (s.q.countP fun x => !(s.modify e fun x => { x with busy := false }).busy x) = s.q.countP fun x => !s.busy x :=
    countP_congr_idle fun x mem => (busy_clear e x).trans (if_neg fun eq : x = e => apart.2.2 x mem e onFree eq)
  refine counted.move (p := .getPost) rfl rfl (.refl _) ?_ ?_ (by simp [MqPhase.putting]) (by simp [MqPhase.getting])
    (fun u x ne held => ⟨id, id, ?_⟩) (by simp [MqPhase.Holds, MqPhase.putting, MqPhase.getting])
  · rw [here]
    exact congrArg (· + s.getsem + 0) same
  · rw [here]
    exact (congrArg (· + s.putsem + 0) freed).trans (Nat.add_right_comm _ 1 s.putsem)
  · have other : x ≠ e := fun eq => ne (counted.alone u t e (eq ▸ held) holds)
    exact (busy_clear e x).trans ((if_neg other).trans (counted.busy_of_holds held))

theorem busy_fill (e : Nat) (data : List B) : (s.modify e (·.fill data)).busy = s.busy := by
  funext x
  rw [busy_modify]
  split
  · next same => rw [same]; rfl
  · rfl

theorem Counted.advance (counted : Counted n s) (t : T) : Counted n (s.advance t) := by
  unfold Mqueue.advance
  split
  case h_1 => exact counted
  case h_2 m here => exact counted.insert here
  case h_3 e m here =>
    refine counted.pass (t := t) (p := .putClear e) rfl rfl rfl rfl (busy_fill e m.data) ?_ ?_ ?_ ?_ <;> rw [here]
    · rfl
    · rfl
    · exact fun _ held => held
    · exact fun _ held => held
  case h_4 e here => exact counted.putClear here
  case h_5 here =>
    refine counted.pass (t := t) (p := .idle) rfl rfl rfl rfl rfl ?_ ?_ ?_ ?_ <;> rw [here]
    · rfl
    · rfl
    · exact fun _ held => held
    · exact fun _ held => held
  case h_6 here => exact counted.unlink here
  case h_7 e here =>
    refine counted.pass (t := t) (p := .getClear e) rfl rfl rfl rfl rfl ?_ ?_ ?_ ?_ <;> rw [here]
    · rfl
    · rfl
    · exact fun _ held => held
    · exact fun _ held => held
  case h_8 e here => exact counted.getClear here
  case h_9 here =>
    refine counted.pass (t := t) (p := .idle) rfl rfl rfl rfl rfl ?_ ?_ ?_ ?_ <;> rw [here]
    · rfl
    · rfl
    · exact fun _ held => held
    · exact fun _ held => held

theorem Counted.step (counted : Counted n s) {event : MqueueEvent T B} (enabled : s.Enabled event) :
    Counted n (s.step event) := by
  cases event with
  | put t m =>
    obtain ⟨here, left⟩ := enabled
    refine counted.pass (t := t) (p := .putFree m) rfl rfl rfl rfl rfl ?_ ?_ ?_ ?_ <;> rw [here]
    · rfl
    · exact (Nat.sub_add_cancel left).symm
    · exact fun _ held => held
    · exact fun _ held => held
  | get t =>
    obtain ⟨here, left⟩ := enabled
    refine counted.pass (t := t) (p := .getFull) rfl rfl rfl rfl rfl ?_ ?_ ?_ ?_ <;> rw [here]
    · exact (Nat.sub_add_cancel left).symm
    · rfl
    · exact fun _ held => held
    · exact fun _ held => held
  | advance t => exact counted.advance t

end Mqueue

end Ecos
