import Ecos.Clock.Counter

namespace Ecos
open List Option Counter

namespace Counter
variable {cfg : CounterConfig} {A : Type} [DecidableEq A]

/-- `add_alarm` finds its alarm due, and the alarm function, which does `run`, comes back
with the alarm on no list. -/
def AddMild (run : Counter cfg A → Counter cfg A) (mild : Counter cfg A → Prop) (s : Counter cfg A) (a : A) : Prop :=
  let s := s.modify a fun x => { x with enabled := true }
  s.trigger a ≤ s.counter → mild (s.call a) ∧ ¬ (run (s.call a)).Linked a

def PerformMild (run : Counter cfg A → Counter cfg A) (mild : Counter cfg A → Prop) (s : Counter cfg A) :
    AlarmCall A → Prop
  | .initializeAt a t i => AddMild run mild (s.rearm a t i) a
  | .enable a => (s.alarm a).enabled = false → AddMild run mild (s.revive a) a
  | .disable _ => True

/-- So does every alarm function that `add_alarm` calls on the way. -/
def HandleMild (s : Counter cfg A) : Handler A → Prop
  | .done => True
  | .call c nested rest =>
    PerformMild (fun s => handle s nested) (fun s => HandleMild s nested) s c ∧
      HandleMild (s.perform (fun s => handle s nested) c) rest

def DeliverMild (s : Counter cfg A) (k : Fin cfg.organisation.lists) (a : A) (inner outer : Handler A) : Prop :=
  let s := s.retire k a
  if (s.alarm a).interval ≠ 0 then
    AddMild (handle · inner) (HandleMild · inner) (s.advance a) a ∧
      HandleMild ((addAlarm (handle · inner) (s.advance a) a).call a) outer
  else HandleMild ((s.modify a fun x => { x with enabled := false }).call a) outer

def ExpireMild (k : Fin cfg.organisation.lists) : List (Handler A × Handler A) → Counter cfg A → Prop
  | [], _ => True
  | (inner, outer) :: turns, s =>
    match s.due k with
    | none => True
    | some a => s.DeliverMild k a inner outer ∧ ExpireMild k turns (s.deliver k a inner outer)

def TickMild : List (List (Handler A × Handler A)) → Counter cfg A → Prop
  | [], _ => True
  | turns :: ticks, s =>
    ExpireMild s.increase.current turns s.increase ∧
      ∀ s', expire s.increase.current turns s.increase = some s' → TickMild ticks s'

/-- No alarm function that `add_alarm` calls for an alarm already due comes back with that
alarm on a list. -/
def Mild (s : Counter cfg A) : CounterOp A → Prop
  | .alarm c handler => PerformMild (handle · handler) (HandleMild · handler) s c
  | .tick ticks => s.TickMild ticks

/-- The counter and its alarms; an operation is a step if it comes to an end. -/
def machine (cfg : CounterConfig) (A : Type) [DecidableEq A] (Ok : Counter cfg A → CounterOp A → Prop) :
    Machine (Counter cfg A) :=
  .guided (fun s => ∃ value increment, s = initial value increment)
    (fun s op => (s.operate op).isSome = true ∧ Ok s op) fun s op => (s.operate op).getD s

/-- Every alarm on a list is there once, on its own list, and enabled; every enabled one
is on a list or waits for its alarm function to return to `add_alarm`; and sorted lists
are sorted. -/
structure IntactBut (waiting : List A) (s : Counter cfg A) : Prop where
  nodup : ∀ k, (s.alarmList k).Nodup
  home : ∀ a k, a ∈ s.alarmList k → k = s.home a ∧ (s.alarm a).enabled = true
  linked : ∀ a, (s.alarm a).enabled = true → s.Linked a ∨ a ∈ waiting
  sorted : cfg.sort = true → ∀ k, (s.alarmList k).Pairwise fun a b => s.trigger a ≤ s.trigger b

variable {s s' : Counter cfg A} {a b : A} {waiting : List A} {k : Fin cfg.organisation.lists}

theorem IntactBut.congr (intact : IntactBut waiting s) (alarm : s'.alarm = s.alarm) (lists : s'.alarmList = s.alarmList)
    (increment : s'.increment = s.increment) : IntactBut waiting s' := by
  have homes : s'.home = s.home := by
    funext a
    simp only [Counter.home, trigger, alarm, increment]
  refine ⟨?_, ?_, ?_, ?_⟩
  · rw [lists]
    exact intact.nodup
  · rw [lists, homes, alarm]
    exact intact.home
  · simp only [Linked, lists, alarm]
    exact intact.linked
  · simp only [trigger, lists, alarm]
    exact intact.sorted

theorem IntactBut.call (intact : IntactBut waiting s) (a : A) : IntactBut waiting (s.call a) :=
  intact.congr rfl rfl rfl

theorem home_modify_of_ne {f : Alarm → Alarm} (ne : b ≠ a) : (s.modify a f).home b = s.home b := by
  simp [home, trigger, modify, ne]

theorem alarm_modify_of_ne {f : Alarm → Alarm} (ne : b ≠ a) : (s.modify a f).alarm b = s.alarm b := by
  simp [modify, ne]

theorem IntactBut.modify (intact : IntactBut waiting s) (off : ¬ s.Linked a) (f : Alarm → Alarm) :
    IntactBut (a :: waiting) (s.modify a f) ∧ ¬ (s.modify a f).Linked a := by
  have apart : ∀ b k, b ∈ s.alarmList k → b ≠ a := fun b k mem same => off ⟨k, same ▸ mem⟩
  refine ⟨⟨intact.nodup, fun b k mem => ?_, fun b enabled => ?_, fun sort k => ?_⟩, off⟩
  · rw [home_modify_of_ne (apart b k mem), alarm_modify_of_ne (apart b k mem)]
    exact intact.home b k mem
  · by_cases same : b = a
    · exact .inr (by simp [same])
    · rw [alarm_modify_of_ne same] at enabled
      exact (intact.linked b enabled).imp_right (mem_cons_of_mem a)
  · refine (intact.sorted sort k).imp_of_mem fun {b c} inB inC order => ?_
    simpa [trigger, Counter.modify, apart b k inB, apart c k inC] using order

theorem IntactBut.settle (intact : IntactBut (a :: waiting) s) (settled : (s.alarm a).enabled = false ∨ s.Linked a) :
    IntactBut waiting s := by
  refine ⟨intact.nodup, intact.home, fun b enabled => ?_, intact.sorted⟩
  rcases intact.linked b enabled with linked | waits
  · exact .inl linked
  · rcases mem_cons.mp waits with rfl | waits
    · rcases settled with disabled | linked
      · rw [disabled] at enabled
        cases enabled
      · exact .inl linked
    · exact .inr waits

theorem IntactBut.slacken (intact : IntactBut waiting s) : IntactBut (a :: waiting) s :=
  ⟨intact.nodup, intact.home, fun b enabled => (intact.linked b enabled).imp_right (mem_cons_of_mem a), intact.sorted⟩

theorem insertAlarm_perm {trigger : A → BitVec 64} {l : List A} : (insertAlarm trigger a l).Perm (a :: l) := by
  induction l with
  | nil => exact .refl _
  | cons x l ih =>
    unfold insertAlarm
    split
    · exact .refl _
    · exact (ih.cons x).trans (.swap ..)

theorem insertAlarm_sorted {trigger : A → BitVec 64} {l : List A} (sorted : l.Pairwise fun b c => trigger b ≤ trigger c) :
    (insertAlarm trigger a l).Pairwise fun b c => trigger b ≤ trigger c := by
  induction l with
  | nil => exact pairwise_singleton ..
  | cons x l ih =>
    obtain ⟨front, rest⟩ := pairwise_cons.mp sorted
    unfold insertAlarm
    split
    · next before =>
      refine pairwise_cons.mpr ⟨fun c mem => ?_, sorted⟩
      rcases mem_cons.mp mem with rfl | later
      · exact BitVec.le_of_lt before
      · exact BitVec.le_trans (BitVec.le_of_lt before) (front c later)
    · next behind =>
      refine pairwise_cons.mpr ⟨fun c mem => ?_, ih rest⟩
      rcases mem_cons.mp (insertAlarm_perm.mem_iff.mp mem) with rfl | later
      · exact BitVec.not_lt.mp behind
      · exact front c later

theorem link_perm : ((s.link a).alarmList (s.home a)).Perm (a :: s.alarmList (s.home a)) := by
  simp only [link, setList, Function.update_self]
  split
  · exact insertAlarm_perm
  · exact perm_append_singleton _ _

theorem link_of_ne (ne : k ≠ s.home a) : (s.link a).alarmList k = s.alarmList k := by
  simp [link, setList, ne]

theorem link_mem : b ∈ (s.link a).alarmList k ↔ b = a ∧ k = s.home a ∨ b ∈ s.alarmList k := by
  by_cases same : k = s.home a
  · subst same
    rw [link_perm.mem_iff, mem_cons]
    simp
  · simp [link_of_ne same, same]

theorem IntactBut.link (intact : IntactBut (a :: waiting) s) (off : ¬ s.Linked a) (enabled : (s.alarm a).enabled = true) :
    IntactBut waiting (s.link a) := by
  refine ⟨fun k => ?_, fun b k mem => ?_, fun b on => ?_, fun sort k => ?_⟩
  · by_cases same : k = s.home a
    · subst same
      exact link_perm.nodup_iff.mpr (nodup_cons.mpr ⟨fun mem => off ⟨_, mem⟩, intact.nodup _⟩)
    · rw [link_of_ne same]
      exact intact.nodup k
  · rcases link_mem.mp mem with ⟨rfl, rfl⟩ | old
    · exact ⟨rfl, enabled⟩
    · exact intact.home b k old
  · rcases intact.linked b on with ⟨k, mem⟩ | waits
    · exact .inl ⟨k, link_mem.mpr (.inr mem)⟩
    · rcases mem_cons.mp waits with rfl | waits
      · exact .inl ⟨s.home b, link_mem.mpr (.inl ⟨rfl, rfl⟩)⟩
      · exact .inr waits
  · by_cases same : k = s.home a
    · subst same
      simp only [Counter.link, setList, Function.update_self, sort, if_true]
      exact insertAlarm_sorted (intact.sorted sort _)
    · rw [link_of_ne same]
      exact intact.sorted sort k

theorem IntactBut.retire (intact : IntactBut waiting s) (mem : a ∈ s.alarmList k) :
    IntactBut (a :: waiting) (s.retire k a) ∧ ¬ (s.retire k a).Linked a := by
  have sub : ∀ j b, b ∈ (s.retire k a).alarmList j → b ∈ s.alarmList j := by
    intro j b onList
    by_cases same : j = k
    · subst same
      exact mem_of_mem_erase (by simpa [retire, setList] using onList)
    · simpa [Counter.retire, setList, same] using onList
  refine ⟨⟨fun j => ?_, fun b j onList => intact.home b j (sub j b onList), fun b enabled => ?_, fun sort j => ?_⟩, ?_⟩
  · by_cases same : j = k
    · subst same
      simpa [retire, setList] using (intact.nodup j).erase a
    · simpa [Counter.retire, setList, same] using intact.nodup j
  · by_cases same : b = a
    · exact .inr (by simp [same])
    · refine (intact.linked b enabled).imp ?_ (mem_cons_of_mem a)
      rintro ⟨j, onList⟩
      refine ⟨j, ?_⟩
      by_cases eq : j = k
      · subst eq
        simpa [retire, setList] using (mem_erase_of_ne same).mpr onList
      · simpa [Counter.retire, setList, eq] using onList
  · by_cases same : j = k
    · subst same
      simpa [retire, setList, trigger] using (intact.sorted sort j).sublist erase_sublist
    · simpa [Counter.retire, setList, same, trigger] using intact.sorted sort j
  · rintro ⟨j, onList⟩
    have here : j = k := ((intact.home a j (sub j a onList)).1.trans (intact.home a k mem).1.symm)
    subst here
    have erased : a ∈ (s.alarmList j).erase a := by simpa [retire, setList] using onList
    exact (intact.nodup j).not_mem_erase erased

theorem IntactBut.retireHome (intact : IntactBut waiting s) (a : A) :
    IntactBut (a :: waiting) (s.retire (s.home a) a) ∧ ¬ (s.retire (s.home a) a).Linked a := by
  by_cases mem : a ∈ s.alarmList (s.home a)
  · exact intact.retire mem
  · have off : ¬ s.Linked a := fun ⟨k, onList⟩ => mem ((intact.home a k onList).1 ▸ onList)
    have same : s.retire (s.home a) a = s := by
      simp [Counter.retire, setList, erase_of_not_mem mem]
    rw [same]
    exact ⟨intact.slacken, off⟩

theorem IntactBut.disable (intact : IntactBut (a :: waiting) s) (off : ¬ s.Linked a) :
    IntactBut waiting (s.modify a fun x => { x with enabled := false }) := by
  obtain ⟨modified, -⟩ := intact.modify off fun x => { x with enabled := false }
  have disabled : ((s.modify a fun x => { x with enabled := false }).alarm a).enabled = false := by simp [Counter.modify]
  exact (modified.settle (.inl disabled)).settle (.inl disabled)

theorem IntactBut.remAlarm (intact : IntactBut waiting s) (a : A) :
    IntactBut waiting (s.remAlarm a) ∧ ¬ (s.remAlarm a).Linked a := by
  obtain ⟨retired, off⟩ := intact.retireHome a
  exact ⟨retired.disable off, off⟩

theorem IntactBut.rearm (intact : IntactBut waiting s) (a : A) (t i : BitVec 64) :
    IntactBut (a :: waiting) (s.rearm a t i) ∧ ¬ (s.rearm a t i).Linked a := by
  unfold Counter.rearm
  split
  · obtain ⟨removed, off⟩ := intact.remAlarm a
    exact removed.modify off _
  · next disabled =>
    have off : ¬ s.Linked a := fun ⟨k, onList⟩ => disabled (intact.home a k onList).2
    exact intact.modify off _

theorem IntactBut.synchronize (intact : IntactBut waiting s) (off : ¬ s.Linked a) :
    IntactBut (a :: waiting) (s.synchronize a) ∧ ¬ (s.synchronize a).Linked a := by
  unfold Counter.synchronize
  split
  · dsimp only
    split
    · exact intact.modify off _
    · exact ⟨intact.slacken, off⟩
  · exact ⟨intact.slacken, off⟩

theorem IntactBut.merge (intact : IntactBut (a :: a :: waiting) s) : IntactBut (a :: waiting) s :=
  ⟨intact.nodup, intact.home, fun b enabled => (intact.linked b enabled).imp_right (by simp), intact.sorted⟩

theorem synchronize_enabled : ((s.synchronize a).alarm a).enabled = (s.alarm a).enabled := by
  unfold synchronize
  split
  · dsimp only
    split
    · simp [modify]
    · rfl
  · rfl

theorem IntactBut.addAlarm {run : Counter cfg A → Counter cfg A} {mild : Counter cfg A → Prop}
    (intact : IntactBut (a :: waiting) s) (off : ¬ s.Linked a) (allowed : AddMild run mild s a)
    (keeps : ∀ s : Counter cfg A, IntactBut (a :: waiting) s → mild s → IntactBut (a :: waiting) (run s)) :
    IntactBut waiting (addAlarm run s a) := by
  obtain ⟨marked, off⟩ := intact.modify off fun x => { x with enabled := true }
  have enabled : ((s.modify a fun x => { x with enabled := true }).alarm a).enabled = true := by simp [Counter.modify]
  unfold Counter.addAlarm
  dsimp only
  split
  · next due =>
    obtain ⟨calm, back⟩ := allowed due
    have ran := keeps _ (marked.merge.call a) calm
    split
    · next again =>
      -- the alarm goes on: it is on no list, so this is the only link
      obtain ⟨moved, off⟩ := ran.modify back fun x => { x with trigger := x.trigger + x.interval }
      obtain ⟨synchronized, off⟩ := moved.merge.synchronize off
      refine synchronized.merge.link off ?_
      rw [synchronize_enabled]
      simpa [Counter.modify] using again.2
    · exact ran.disable back
  · exact marked.merge.link off enabled

theorem IntactBut.perform {run : Counter cfg A → Counter cfg A} {mild : Counter cfg A → Prop} {c : AlarmCall A}
    (intact : IntactBut waiting s) (allowed : PerformMild run mild s c)
    (keeps : ∀ (waiting : List A) (s : Counter cfg A), IntactBut waiting s → mild s → IntactBut waiting (run s)) :
    IntactBut waiting (s.perform run c) := by
  cases c with
  | initializeAt a t i =>
    obtain ⟨armed, off⟩ := intact.rearm a t i
    exact armed.addAlarm off allowed (keeps _)
  | enable a =>
    rw [Counter.perform]
    split
    · exact intact
    · next disabled =>
      have off : ¬ s.Linked a := fun ⟨k, onList⟩ => disabled (intact.home a k onList).2
      obtain ⟨synchronized, off⟩ := intact.synchronize off
      obtain ⟨marked, off⟩ := synchronized.modify off fun x => { x with enabled := true }
      exact marked.merge.addAlarm off (allowed (by simpa using disabled)) (keeps _)
  | disable a =>
    rw [Counter.perform]
    split
    · exact (intact.remAlarm a).1
    · exact intact

theorem IntactBut.handle {h : Handler A} (intact : IntactBut waiting s) (mild : HandleMild s h) :
    IntactBut waiting (s.handle h) := by
  induction h generalizing s waiting with
  | done => exact intact
  | call c nested rest inner outer => exact outer (intact.perform mild.1 fun _ _ => inner) mild.2

theorem due_mem (picked : s.due k = some a) : a ∈ s.alarmList k := by
  unfold due at picked
  split at picked
  · exact mem_of_mem_head? (filter_eq_some_iff.mp picked).1
  · exact mem_of_find?_eq_some picked

section
variable (intact : IntactBut waiting s)
include intact

theorem IntactBut.deliver {inner outer : Handler A} (picked : s.due k = some a)
    (mild : DeliverMild s k a inner outer) : IntactBut waiting (s.deliver k a inner outer) := by
  obtain ⟨retired, off⟩ := intact.retire (due_mem picked)
  unfold DeliverMild at mild
  unfold Counter.deliver
  dsimp only at mild ⊢
  split at mild
  · next periodic =>
    rw [if_pos periodic]
    obtain ⟨advanced, off⟩ := retired.modify off fun x => { x with trigger := x.trigger + x.interval }
    have added := advanced.merge.addAlarm off mild.1 fun _ kept calm => kept.handle calm
    exact (added.call a).handle mild.2
  · next once =>
    rw [if_neg once]
    exact ((retired.disable off).call a).handle mild

theorem IntactBut.expire {turns : List (Handler A × Handler A)} (mild : ExpireMild k turns s) (ended : expire k turns s = some s') : IntactBut waiting s' := by
  induction turns generalizing s with
  | nil =>
    simp only [expire, ite_none_right_eq_some, some.injEq] at ended
    exact ended.2 ▸ intact
  | cons turn turns ih =>
    obtain ⟨inner, outer⟩ := turn
    unfold expire at ended
    unfold ExpireMild at mild
    split at ended
    · exact some.inj ended ▸ intact
    · next a picked =>
      rw [picked] at mild
      exact ih (intact.deliver picked mild.1) mild.2 ended

theorem IntactBut.tick {ticks : List (List (Handler A × Handler A))} (mild : TickMild ticks s) (ended : tick ticks s = some s') : IntactBut waiting s' := by
  induction ticks generalizing s with
  | nil => exact some.inj ended ▸ intact
  | cons turns ticks ih =>
    obtain ⟨between, first, rest⟩ := bind_eq_some_iff.mp ended
    have increased : IntactBut waiting s.increase := intact.congr rfl rfl rfl
    exact ih (increased.expire mild.1 first) (mild.2 between first) rest

theorem IntactBut.operate {op : CounterOp A} (mild : s.Mild op)
    (ended : s.operate op = some s') : IntactBut waiting s' := by
  cases op with
  | alarm c handler =>
    obtain rfl := some.inj ended
    exact intact.perform mild fun _ _ kept calm => kept.handle calm
  | tick ticks => exact intact.tick mild ended

end

theorem reach_intact (reach : (machine cfg A Mild).Reach s) : IntactBut [] s := by
  refine reach.kept (P := IntactBut []) ?_ fun s op intact ok => ?_
  · rintro s ⟨value, increment, rfl⟩
    refine ⟨fun _ => .nil, fun a k mem => ?_, fun a enabled => ?_, fun _ _ => .nil⟩
    · simp [initial] at mem
    · simp [initial] at enabled
  · obtain ⟨s', ended⟩ := isSome_iff_exists.mp ok.1
    rw [ended]
    exact intact.operate ok.2 ended

theorem IntactBut.links_eq_one (intact : IntactBut [] s) (linked : s.Linked a) : s.links a = 1 := by
  obtain ⟨k, mem⟩ := linked
  have elsewhere : ∀ j ∈ Finset.univ, j ≠ k → (s.alarmList j).count a = 0 := fun j _ ne =>
    count_eq_zero.mpr fun onList => ne ((intact.home a j onList).1.trans (intact.home a k mem).1.symm)
  rw [links, Finset.sum_eq_single k elsewhere fun out => absurd (Finset.mem_univ k) out]
  exact count_eq_one_of_mem (intact.nodup k) mem

/-- As long as no alarm function called by `add_alarm` puts its alarm back on a list, every
alarm is enabled exactly if it is on a list, and it is there once. -/
theorem alarm_lists_intact (cfg : CounterConfig) (s : Counter cfg A) (reach : (machine cfg A Mild).Reach s) (a : A) :
    ((s.alarm a).enabled = true ↔ s.Linked a) ∧ (s.Linked a → s.links a = 1) := by
  have intact := reach_intact reach
  refine ⟨⟨fun enabled => ?_, fun ⟨k, mem⟩ => (intact.home a k mem).2⟩, intact.links_eq_one⟩
  rcases intact.linked a enabled with linked | waits
  · exact linked
  · cases waits

/-- Alarm 1 is due at once, and its function disables alarm 0. -/
theorem alarm_lists_intact_disabling :
    (((initial 0 1 : Counter ⟨.single, false⟩ (Fin 2)).perform (handle · .done) (.initializeAt 0 10 5)).perform
      (handle · (.call (.disable 0) .done .done)) (.initializeAt 1 0 3)).links 1 = 1 := by
  have first : (machine ⟨.single, false⟩ (Fin 2) Mild).Reach ((initial 0 1).perform (handle · .done) (.initializeAt 0 10 5)) := by
    refine .next (.start ⟨0, 1, rfl⟩) ⟨.alarm (.initializeAt 0 10 5) .done, ⟨rfl, fun due => ?_⟩, rfl⟩
    exact absurd due (by decide)
  refine (alarm_lists_intact _ _ (.next first ⟨.alarm (.initializeAt 1 0 3) (.call (.disable 0) .done .done), ⟨rfl, fun _ => ?_⟩, rfl⟩)
    1).2 (by decide)
  exact ⟨⟨trivial, trivial⟩, by decide⟩

/-- An alarm that is due when it is initialized, and whose function sets it up once more for
a later time: it is then on a list and not enabled. -/
theorem rearmed_by_its_function : ∃ s : Counter ⟨.single, false⟩ (Fin 1),
    (machine ⟨.single, false⟩ (Fin 1) fun _ _ => True).Reach s ∧ (s.alarm 0).enabled = false ∧ s.Linked 0 := by
  refine ⟨_, .next (.start ⟨0, 1, rfl⟩) ⟨.alarm (.initializeAt 0 0 0) (.call (.initializeAt 0 7 0) .done .done), ⟨rfl, trivial⟩, rfl⟩,
    ?_, ?_⟩
  · decide
  · decide

end Counter

end Ecos
