import Ecos.Sync.MqueueCount

namespace Ecos
open List MqPhase

namespace MqPhase
variable {B : Type}

/-- What the call is copying in. -/
def loading : MqPhase B → Option (Nat × Message B)
  | .putCopy e m => some (e, m)
  | _ => none

/-- The entry the call is copying out of. -/
def reading : MqPhase B → Option Nat
  | .getCopy e => some e
  | _ => none

theorem holds_of_loading {p : MqPhase B} {e : Nat} {m : Message B} (loads : p.loading = some (e, m)) : p.Holds e := by
  cases p <;> simp [loading] at loads
  obtain ⟨rfl, rfl⟩ := loads
  exact .inl rfl

theorem holds_of_reading {p : MqPhase B} {e : Nat} (reads : p.reading = some e) : p.getting = some e := by
  cases p <;> simp [reading] at reads
  obtain rfl := reads
  rfl

end MqPhase

theorem Qentry.fill_message {B : Type} (x : Qentry B) (data : List B) : (x.fill data).message = ⟨data, x.priority⟩ := by
  have copied : (List.range data.length).map (fun i => data[i]?.getD (x.buf i)) = data := by
    refine ext_getElem (by simp) fun i _ small => ?_
    simp [getElem?_eq_getElem small]
  simp [Qentry.message, Qentry.fill, copied]

namespace Mqueue
variable {T B : Type} [DecidableEq T] [Fintype T]

/-- The entry has a message that nobody has received. -/
def Carrying (s : Mqueue T B) (e : Nat) : Prop := e ∈ s.q ∨ ∃ t, (s.phase t).reading = some e

/-- The order of `q`: the higher priority first, then the message put in earlier. -/
def Ahead (s : Mqueue T B) (a b : Nat) : Prop :=
  s.priority b < s.priority a ∨ s.priority b = s.priority a ∧ s.stamp a < s.stamp b

/-- The entry has message `m`, unless a call is about to copy it in. -/
def Loaded (s : Mqueue T B) (e : Nat) (m : Message B) : Prop :=
  (∀ t m', (s.phase t).loading = some (e, m') → m' = m) ∧
    ((∀ t m', (s.phase t).loading ≠ some (e, m')) → (s.entry e).message = m)

/-- Every message sent is either carried by one entry, complete once its copy is done,
or was received, once, as it was sent. -/
structure Delivered (s : Mqueue T B) : Prop where
  sorted : s.q.Pairwise s.Ahead
  loaded : ∀ e, s.Carrying e → ∃ m, s.sent[s.stamp e]? = some m ∧ s.priority e = m.prio ∧ s.Loaded e m
  distinct : ∀ e f, s.Carrying e → s.Carrying f → s.stamp e = s.stamp f → e = f
  fresh : ∀ e, s.Carrying e → s.stamp e ∉ s.received.map Prod.fst
  once : (s.received.map Prod.fst).Nodup
  own : ∀ k m, (k, m) ∈ s.received → s.sent[k]? = some m
  kept : ∀ k, k < s.sent.length → k ∈ s.received.map Prod.fst ∨ ∃ e, s.Carrying e ∧ s.stamp e = k

variable {n : Nat} {s s' : Mqueue T B} {t : T}

theorem Delivered.initial (n : Nat) (entry : Nat → Qentry B) : (initial n entry : Mqueue T B).Delivered := by
  have nothing : ∀ e, ¬ (Mqueue.initial n entry : Mqueue T B).Carrying e := by
    rintro e (onQ | ⟨t, reads⟩)
    · simp [Mqueue.initial] at onQ
    · simp [Mqueue.initial, reading] at reads
  refine ⟨.nil, fun e carries => absurd carries (nothing e), fun e _ carries => absurd carries (nothing e),
    fun e carries => absurd carries (nothing e), .nil, ?_, ?_⟩
  · intro k m mem
    simp [Mqueue.initial] at mem
  · intro k small
    simp [Mqueue.initial] at small

theorem phase_update {α : Type} (f : MqPhase B → α) {p : MqPhase B} (same : f p = f (s.phase t)) (u : T) :
    f (Function.update s.phase t p u) = f (s.phase u) := by
  by_cases eq : u = t
  · rw [eq, Function.update_self, same]
  · rw [Function.update_of_ne eq]

theorem Delivered.move (delivered : s.Delivered) (q : s'.q.Sublist s.q) (sent : s'.sent = s.sent)
    (stamp : s'.stamp = s.stamp)
    (received : s'.received = s.received) (priority : s'.priority = s.priority)
    (carrying : ∀ e, s'.Carrying e ↔ s.Carrying e)
    (loaded : ∀ e m, s.priority e = m.prio → s.Loaded e m → s'.Loaded e m) : s'.Delivered := by
  have ahead : s'.Ahead = s.Ahead := by
    funext a b
    simp only [Ahead, priority, stamp]
  refine ⟨?_, fun e carries => ?_, fun e f first second same => ?_, fun e carries => ?_, ?_, fun k m mem => ?_,
    fun k small => ?_⟩
  · rw [ahead]
    exact delivered.sorted.sublist q
  · obtain ⟨m, stored, prio, full⟩ := delivered.loaded e ((carrying e).mp carries)
    rw [sent, stamp, priority]
    exact ⟨m, stored, prio, loaded e m prio full⟩
  · rw [stamp] at same
    exact delivered.distinct e f ((carrying e).mp first) ((carrying f).mp second) same
  · rw [stamp, received]
    exact delivered.fresh e ((carrying e).mp carries)
  · rw [received]
    exact delivered.once
  · rw [received] at mem
    rw [sent]
    exact delivered.own k m mem
  · rw [sent] at small
    simp only [received, carrying, stamp]
    exact delivered.kept k small

theorem Delivered.pass (delivered : s.Delivered) (q : s'.q = s.q) (sent : s'.sent = s.sent) (stamp : s'.stamp = s.stamp)
    (received : s'.received = s.received) (priority : s'.priority = s.priority)
    (message : ∀ e, (s'.entry e).message = (s.entry e).message)
    (loading : ∀ u, (s'.phase u).loading = (s.phase u).loading)
    (reading : ∀ u, (s'.phase u).reading = (s.phase u).reading) : s'.Delivered := by
  refine delivered.move (by rw [q]) sent stamp received priority (fun e => ?_) fun e m _ full => ?_
  · simp only [Carrying, q, reading]
  · simp only [Loaded, loading, message]
    exact full

theorem insertByPrio_sorted {priority : Nat → Nat} {e prio : Nat} {l : List Nat} {R : Nat → Nat → Prop}
    (sorted : l.Pairwise R) (first : ∀ x ∈ l, priority x < prio → R e x) (later : ∀ x ∈ l, prio ≤ priority x → R x e)
    (descends : ∀ a ∈ l, ∀ b ∈ l, R a b → priority b ≤ priority a) : (insertByPrio priority e prio l).Pairwise R := by
  induction l with
  | nil => exact pairwise_singleton R e
  | cons x l ih =>
    obtain ⟨front, rest⟩ := pairwise_cons.mp sorted
    unfold insertByPrio
    split
    · next lower =>
      refine pairwise_cons.mpr ⟨fun y mem => ?_, sorted⟩
      rcases mem_cons.mp mem with rfl | behind
      · exact first y (mem_cons_self ..) lower
      · exact first y mem (lt_of_le_of_lt (descends x (mem_cons_self ..) y mem (front y behind)) lower)
    · next higher =>
      have tail := ih rest (fun y mem => first y (mem_cons_of_mem _ mem))
        (fun y mem => later y (mem_cons_of_mem _ mem))
        fun a inA b inB => descends a (mem_cons_of_mem _ inA) b (mem_cons_of_mem _ inB)
      refine pairwise_cons.mpr ⟨fun y mem => ?_, tail⟩
      rcases mem_cons.mp (insertByPrio_perm.mem_iff.mp mem) with rfl | behind
      · exact later x (mem_cons_self ..) (not_lt.mp higher)
      · exact front y behind

theorem Counted.not_carrying (counted : Counted n s) {e : Nat} (onFree : e ∈ s.freelist) (idle : s.busy e = false) :
    ¬ s.Carrying e := by
  rintro (onQ | ⟨u, reads⟩)
  · exact (nodup_append.mp counted.nodup).2.2 e onQ e onFree rfl
  · exact counted.not_holds idle u (.inr (holds_of_reading reads))

theorem Delivered.recent (delivered : s.Delivered) {x : Nat} (carries : s.Carrying x) : s.stamp x < s.sent.length := by
  obtain ⟨m', sent, -⟩ := delivered.loaded x carries
  exact (List.getElem?_eq_some_iff.mp sent).1

/-- What `insert` does with the free entry `e`. -/
structure Inserted (t : T) (e : Nat) (m : Message B) (s s' : Mqueue T B) : Prop where
  q : s'.q = insertByPrio s.priority e m.prio s.q
  sent : s'.sent = s.sent ++ [m]
  received : s'.received = s.received
  record : ∀ x, x ≠ e → s'.entry x = s.entry x
  stamp : ∀ x, x ≠ e → s'.stamp x = s.stamp x
  newPriority : s'.priority e = m.prio
  newStamp : s'.stamp e = s.sent.length
  mine : (s'.phase t).loading = some (e, m)
  others : ∀ u, u ≠ t → s'.phase u = s.phase u
  reading : ∀ u, (s'.phase u).reading = (s.phase u).reading
  unread : (s.phase t).loading = none
  idle : ∀ u, ¬ (s.phase u).Holds e
  wasFree : ¬ s.Carrying e

theorem Counted.inserted (counted : Counted n s) {m : Message B} (here : s.phase t = .putFree m) :
    ∃ e, Inserted t e m s (s.insert t m) := by
  obtain ⟨e, rest, found⟩ := counted.free_idle (t := t) (by rw [here]; rfl)
  obtain ⟨front, back, split, rfl, -, idle⟩ := unlinkIdle_some found
  have wasFree : ¬ s.Carrying e := counted.not_carrying (by simp [split]) idle
  refine ⟨e, ?_, ?_, ?_, fun x ne => ?_, fun x ne => ?_, ?_, ?_, ?_, fun u ne => ?_, fun u => ?_,
    by rw [here]; rfl, counted.not_holds idle, wasFree⟩ <;> simp only [Mqueue.insert, found]
  · rfl
  · simp [setPhase, modify, ne]
  · simp [ne]
  · simp [priority, setPhase, modify]
  · simp
  · simp [setPhase, loading]
  · simp [setPhase, modify, ne]
  · exact phase_update (s := s) reading (by rw [here]; rfl) u

section Inserted
variable {e : Nat} {m : Message B} (inserted : Inserted t e m s s')
include inserted

theorem Inserted.carrying (x : Nat) : s'.Carrying x ↔ x = e ∨ s.Carrying x := by
  have onQ : x ∈ s'.q ↔ x = e ∨ x ∈ s.q := by
    rw [inserted.q]
    exact insertByPrio_perm.mem_iff.trans mem_cons
  simp only [Carrying, onQ, inserted.reading, or_assoc]

theorem Inserted.other {x : Nat} (carries : s.Carrying x) : x ≠ e :=
  fun same => inserted.wasFree (same ▸ carries)

theorem Inserted.priority {x : Nat} (ne : x ≠ e) : s'.priority x = s.priority x :=
  congrArg Qentry.priority (inserted.record x ne)

theorem Inserted.sorted (delivered : s.Delivered) : s'.q.Pairwise s'.Ahead := by
  have apart : ∀ x ∈ s.q, x ≠ e := fun x onQ => inserted.other (.inl onQ)
  rw [inserted.q]
  refine insertByPrio_sorted ?_ (fun x onQ lower => ?_) (fun x onQ higher => ?_) fun a inA b inB order => ?_
  · refine delivered.sorted.imp_of_mem fun {a b} inA inB order => ?_
    rw [Ahead, inserted.priority (apart a inA), inserted.priority (apart b inB), inserted.stamp a (apart a inA),
      inserted.stamp b (apart b inB)]
    exact order
  · refine .inl ?_
    rw [inserted.priority (apart x onQ), inserted.newPriority]
    exact lower
  · rw [Ahead, inserted.priority (apart x onQ), inserted.newPriority, inserted.stamp x (apart x onQ), inserted.newStamp]
    have earlier := delivered.recent (.inl onQ)
    omega
  · rw [Ahead, inserted.priority (apart a inA), inserted.priority (apart b inB)] at order
    omega

theorem Inserted.loaded_new : ∃ m', s'.sent[s'.stamp e]? = some m' ∧ s'.priority e = m'.prio ∧ s'.Loaded e m' := by
  refine ⟨m, ?_, inserted.newPriority, fun u m' loads => ?_, fun none => absurd inserted.mine (none t m)⟩
  · rw [inserted.newStamp, inserted.sent, getElem?_concat_length]
  · by_cases same : u = t
    · rw [same, inserted.mine] at loads
      exact (Prod.mk.inj (Option.some.inj loads)).2.symm
    · rw [inserted.others u same] at loads
      exact absurd (holds_of_loading loads) (inserted.idle u)

theorem Inserted.loaded_old (delivered : s.Delivered) {x : Nat} (before : s.Carrying x) :
    ∃ m', s'.sent[s'.stamp x]? = some m' ∧ s'.priority x = m'.prio ∧ s'.Loaded x m' := by
  have ne := inserted.other before
  obtain ⟨m', stored, prio, sole, full⟩ := delivered.loaded x before
  refine ⟨m', ?_, (inserted.priority ne).trans prio, fun u m'' loads => ?_, fun none => ?_⟩
  · rw [inserted.stamp x ne, inserted.sent, getElem?_append_left (delivered.recent before)]
    exact stored
  · by_cases same : u = t
    · rw [same, inserted.mine] at loads
      exact absurd (Prod.mk.inj (Option.some.inj loads)).1.symm ne
    · rw [inserted.others u same] at loads
      exact sole u m'' loads
  · rw [inserted.record x ne]
    refine full fun u m'' loads => ?_
    by_cases same : u = t
    · rw [same, inserted.unread] at loads
      cases loads
    · exact none u m'' (by rw [inserted.others u same]; exact loads)

theorem Inserted.delivered (delivered : s.Delivered) : s'.Delivered := by
  refine ⟨inserted.sorted delivered, fun x carries => ?_, fun x y first second same => ?_, fun x carries => ?_, ?_,
    fun k m' mem => ?_, fun k small => ?_⟩
  · rcases (inserted.carrying x).mp carries with rfl | before
    · exact inserted.loaded_new
    · exact inserted.loaded_old delivered before
  · rcases (inserted.carrying x).mp first with rfl | before <;> rcases
    (inserted.carrying y).mp second with rfl | before'
    · rfl
    · rw [inserted.newStamp, inserted.stamp y (inserted.other before')] at same
      exact absurd same (delivered.recent before').ne'
    · rw [inserted.newStamp, inserted.stamp x (inserted.other before)] at same
      exact absurd same (delivered.recent before).ne
    · rw [inserted.stamp x (inserted.other before), inserted.stamp y (inserted.other before')] at same
      exact delivered.distinct x y before before' same
  · rw [inserted.received]
    rcases (inserted.carrying x).mp carries with rfl | before
    · rw [inserted.newStamp]
      intro mem
      obtain ⟨⟨k, m'⟩, inReceived, eq⟩ := mem_map.mp mem
      have small := (List.getElem?_eq_some_iff.mp (delivered.own k m' inReceived)).1
      exact absurd eq small.ne
    · rw [inserted.stamp x (inserted.other before)]
      exact delivered.fresh x before
  · rw [inserted.received]
    exact delivered.once
  · rw [inserted.received] at mem
    have stored := delivered.own k m' mem
    rw [inserted.sent, List.getElem?_append_left (List.getElem?_eq_some_iff.mp stored).1]
    exact stored
  · rw [inserted.sent, length_append, length_singleton] at small
    rcases Nat.lt_succ_iff_lt_or_eq.mp small with earlier | rfl
    · rcases delivered.kept k earlier with done | ⟨x, carries, stamped⟩
      · exact .inl (inserted.received ▸ done)
      · refine .inr ⟨x, (inserted.carrying x).mpr (.inr carries), ?_⟩
        rw [inserted.stamp x (inserted.other carries)]
        exact stamped
    · exact .inr ⟨e, (inserted.carrying e).mpr (.inl rfl), inserted.newStamp⟩

end Inserted

end Mqueue

open Function

namespace Mqueue
variable {T B : Type} [DecidableEq T] [Fintype T] {n : Nat} {s s' : Mqueue T B} {t : T}

theorem Delivered.unlink_first (delivered : s.Delivered) {e : Nat} {rest : List Nat}
    (found : unlinkIdle s.busy s.q = some (e, rest)) :
    e ∈ s.q ∧ s.busy e = false ∧ ∀ x ∈ s.q, x ≠ e → s.busy x = false → s.Ahead e x := by
  obtain ⟨front, back, split, rfl, passed, idle⟩ := unlinkIdle_some found
  have sorted := delivered.sorted
  rw [split] at sorted ⊢
  have behind := (pairwise_cons.mp (pairwise_append.mp sorted).2.1).1
  refine ⟨by simp, idle, fun x mem ne idleX => ?_⟩
  rcases mem_append.mp mem with inFront | later
  · rw [passed x inFront] at idleX
    cases idleX
  · rcases mem_cons.mp later with same | inBack
    · exact absurd same ne
    · exact behind x inBack

theorem message_mark (e : Nat) (b : Bool) (x : Nat) :
    ((s.modify e fun y => { y with busy := b }).entry x).message = (s.entry x).message := by
  by_cases same : x = e
  · simp [modify, same, Qentry.message]
  · simp [modify, same]

theorem priority_mark (e : Nat) (b : Bool) : (s.modify e fun y => { y with busy := b }).priority = s.priority := by
  funext x
  by_cases same : x = e <;> simp [modify, same, priority]

section
variable (delivered : s.Delivered)
include delivered

theorem Delivered.unlink (counted : Counted n s) (here : s.phase t = .getFull) : (s.unlink t).Delivered := by
  obtain ⟨e, rest, found⟩ := counted.full_idle (t := t) (by rw [here]; rfl)
  obtain ⟨front, back, split, rfl, -, idle⟩ := unlinkIdle_some found
  simp only [Mqueue.unlink, found]
  have loading : ∀ u, (update s.phase t (.getCopy e) u).loading = (s.phase u).loading :=
    phase_update loading (by rw [here]; rfl)
  have reading : ∀ u, u ≠ t → (update s.phase t (.getCopy e) u).reading = (s.phase u).reading :=
    fun u ne => by rw [update_of_ne ne]
  have notMine : (s.phase t).reading = none := by rw [here]; rfl
  refine delivered.move ?_ rfl rfl rfl (priority_mark e true) (fun x => ?_) fun x m _ full => ?_
  · rw [split]
    exact (sublist_cons_self e back).append_left front
  · constructor
    · rintro (onQ | ⟨u, reads⟩)
      · exact .inl (split ▸ by simpa using Or.imp_right .inr (mem_append.mp onQ))
      · by_cases same : u = t
        · subst same
          have eq : e = x := by simpa [setPhase, MqPhase.reading] using reads
          exact .inl (by simp [split, eq])
        · exact .inr ⟨u, (reading u same).symm.trans reads⟩
    · rintro (onQ | ⟨u, reads⟩)
      · by_cases same : x = e
        · exact .inr ⟨t, by simp [setPhase, MqPhase.reading, same]⟩
        · exact .inl (by simpa [split, same] using onQ)
      · by_cases same : u = t
        · rw [same, notMine] at reads
          cases reads
        · exact .inr ⟨u, (reading u same).trans reads⟩
  · refine ⟨fun u m' loads => full.1 u m' ((loading u).symm.trans loads), fun none => ?_⟩
    refine (message_mark e true x).trans (full.2 fun u m' loads => ?_)
    exact none u m' ((loading u).trans loads)

theorem Delivered.fill {e : Nat} {m : Message B}
    (here : s.phase t = .putCopy e m) : ((s.modify e (·.fill m.data)).setPhase t (.putClear e)).Delivered := by
  have reading : ∀ u, (update s.phase t (.putClear e) u).reading = (s.phase u).reading :=
    phase_update reading (by rw [here]; rfl)
  have loading : ∀ u, u ≠ t → (update s.phase t (.putClear e) u).loading = (s.phase u).loading :=
    fun u ne => by rw [update_of_ne ne]
  have mine : (s.phase t).loading = some (e, m) := by rw [here]; rfl
  have prio : ((s.modify e (·.fill m.data)).setPhase t (.putClear e)).priority = s.priority := by
    funext x
    by_cases same : x = e
    · simp [priority, setPhase, modify, Qentry.fill, same]
    · simp [priority, setPhase, modify, same]
  refine delivered.move (.refl _) rfl rfl rfl prio (fun x => ?_) fun x m' atPrio full =>
    ⟨fun u m'' loads => ?_, fun none => ?_⟩
  · exact or_congr_right (exists_congr fun u => by rw [← reading u]; rfl)
  · by_cases same : u = t
    · subst same
      simp [setPhase, MqPhase.loading] at loads
    · exact full.1 u m'' ((loading u same).symm.trans loads)
  · by_cases same : x = e
    · subst same
      obtain rfl := full.1 t m mine
      have copied : (((s.modify x (·.fill m.data)).setPhase t (.putClear x)).entry x).message =
        ⟨m.data, s.priority x⟩ := by
        simpa [setPhase, modify, priority] using Qentry.fill_message (s.entry x) m.data
      rw [copied, atPrio]
    · have record : ((s.modify e (·.fill m.data)).setPhase t (.putClear e)).entry x = s.entry x := by
        simp [setPhase, modify, same]
      rw [record]
      refine full.2 fun u m'' loads => ?_
      by_cases eq : u = t
      · rw [eq, mine] at loads
        exact same (Prod.mk.inj (Option.some.inj loads)).1.symm
      · exact none u m'' ((loading u eq).trans loads)

theorem Delivered.complete (counted : Counted n s) {e : Nat} (here : s.phase t = .getCopy e) :
    s.sent[s.stamp e]? = some (s.entry e).message := by
  have holds : (s.phase t).Holds e := .inr (by rw [here]; rfl)
  obtain ⟨m, stored, -, full⟩ := delivered.loaded e (.inr ⟨t, by rw [here]; rfl⟩)
  have whole : (s.entry e).message = m := full.2 fun u m' loads => by
    obtain rfl := counted.alone u t e (holds_of_loading loads) holds
    rw [here] at loads
    cases loads
  rw [whole]
  exact stored

theorem Delivered.read (counted : Counted n s) {e : Nat} (here : s.phase t = .getCopy e) :
    Mqueue.Delivered { s.setPhase t (.getClear e) with received :=
      s.received ++ [(s.stamp e, (s.entry e).message)] } := by
  have holds : (s.phase t).getting = some e := by rw [here]; rfl
  have mine : s.Carrying e := .inr ⟨t, by rw [here]; rfl⟩
  have stored := delivered.complete counted here
  have loading : ∀ u, (update s.phase t (.getClear e) u).loading = (s.phase u).loading :=
    phase_update loading (by rw [here]; rfl)
  have carrying : ∀ x, (s.setPhase t (.getClear e)).Carrying x ↔ s.Carrying x ∧ x ≠ e := by
    intro x
    constructor
    · rintro (onQ | ⟨u, reads⟩)
      · refine ⟨.inl onQ, fun same => ?_⟩
        exact (nodup_append.mp counted.nodup).2.2 x onQ e (counted.getting t e holds).1 same
      · by_cases same : u = t
        · subst same
          simp [setPhase, reading] at reads
        · have before : (s.phase u).reading = some x := by simpa [setPhase, same] using reads
          refine ⟨.inr ⟨u, before⟩, fun eq => same ?_⟩
          exact counted.alone u t e (.inr (eq ▸ holds_of_reading before)) (.inr holds)
    · rintro ⟨onQ | ⟨u, reads⟩, ne⟩
      · exact .inl onQ
      · have other : u ≠ t := fun same => ne (by rw [same, here] at reads; exact (Option.some.inj reads).symm)
        exact .inr ⟨u, by simpa [setPhase, other] using reads⟩
  refine ⟨delivered.sorted, fun x carries => ?_, fun x y first second => ?_, fun x carries => ?_, ?_, fun k m mem => ?_,
    fun k small => ?_⟩
  · obtain ⟨m, sent, prio, full⟩ := delivered.loaded x ((carrying x).mp carries).1
    refine ⟨m, sent, prio, fun u m' loads => full.1 u m' ((loading u).symm.trans loads), fun none => ?_⟩
    exact full.2 fun u m' loads => none u m' ((loading u).trans loads)
  · exact delivered.distinct x y ((carrying x).mp first).1 ((carrying y).mp second).1
  · obtain ⟨before, ne⟩ := (carrying x).mp carries
    simp only [map_append, map_cons, map_nil, mem_append, mem_singleton, not_or]
    exact ⟨delivered.fresh x before, fun same => ne (delivered.distinct x e before mine same)⟩
  · simp only [map_append, map_cons, map_nil]
    refine nodup_append.mpr ⟨delivered.once, nodup_singleton _, fun k before k' last eq => ?_⟩
    rw [eq, mem_singleton.mp last] at before
    exact delivered.fresh e mine before
  · rcases mem_append.mp mem with before | last
    · exact delivered.own k m before
    · obtain ⟨rfl, rfl⟩ := Prod.mk.inj (mem_singleton.mp last)
      exact stored
  · simp only [map_append, map_cons, map_nil, mem_append, mem_singleton]
    rcases delivered.kept k small with done | ⟨x, carries, stamped⟩
    · exact .inl (.inl done)
    · by_cases same : x = e
      · exact .inl (.inr (same ▸ stamped.symm))
      · exact .inr ⟨x, (carrying x).mpr ⟨carries, same⟩, stamped⟩

theorem Delivered.clear (e : Nat) {p : MqPhase B} (loading : p.loading = (s.phase t).loading)
    (reading : p.reading = (s.phase t).reading) :
    ((s.modify e fun x => { x with busy := false }).setPhase t p).Delivered :=
  delivered.pass rfl rfl rfl rfl (priority_mark e false) (message_mark e false)
    (phase_update (s := s) MqPhase.loading loading) (phase_update (s := s) MqPhase.reading reading)

theorem Delivered.turn {p : MqPhase B} (phase : s'.phase = update s.phase t p)
    (loading : p.loading = (s.phase t).loading) (reading : p.reading = (s.phase t).reading) (q : s'.q = s.q)
    (sent : s'.sent = s.sent) (stamp : s'.stamp = s.stamp) (received : s'.received = s.received)
    (entry : s'.entry = s.entry) : s'.Delivered := by
  refine delivered.pass q sent stamp received ?_ (fun e => by rw [entry]) (fun u => ?_) fun u => ?_
  · funext e
    simp only [priority, entry]
  · rw [phase]
    exact phase_update MqPhase.loading loading u
  · rw [phase]
    exact phase_update MqPhase.reading reading u

theorem Delivered.advance (counted : Counted n s) (t : T) : (s.advance t).Delivered := by
  unfold Mqueue.advance
  split
  case h_1 => exact delivered
  case h_2 m here =>
    obtain ⟨e, inserted⟩ := counted.inserted here
    exact inserted.delivered delivered
  case h_3 e m here => exact delivered.fill here
  case h_4 e here => exact delivered.clear e (by rw [here]; rfl) (by rw [here]; rfl)
  case h_5 here => exact delivered.turn (p := .idle) rfl (by rw [here]; rfl) (by rw [here]; rfl) rfl rfl rfl rfl rfl
  case h_6 here => exact delivered.unlink counted here
  case h_7 e here => exact delivered.read counted here
  case h_8 e here => exact delivered.clear e (by rw [here]; rfl) (by rw [here]; rfl)
  case h_9 here => exact delivered.turn (p := .idle) rfl (by rw [here]; rfl) (by rw [here]; rfl) rfl rfl rfl rfl rfl

theorem Delivered.step (counted : Counted n s) {event : MqueueEvent T B}
    (enabled : s.Enabled event) : (s.step event).Delivered := by
  cases event with
  | put t m =>
    exact delivered.turn (p := .putFree m) rfl (by rw [enabled.1]; rfl) (by rw [enabled.1]; rfl) rfl rfl rfl rfl rfl
  | get t =>
    exact delivered.turn (p := .getFull) rfl (by rw [enabled.1]; rfl) (by rw [enabled.1]; rfl) rfl rfl rfl rfl rfl
  | advance t => exact delivered.advance counted t

end

theorem reach_delivered (reach : (machine T B n).Reach s) : Counted n s ∧ s.Delivered := by
  refine reach.kept (P := fun s => Counted n s ∧ s.Delivered) ?_ fun s event held enabled =>
    ⟨held.1.step enabled, held.2.step held.1 enabled⟩
  rintro s ⟨entry, rfl⟩
  exact ⟨.initial n entry, .initial n entry⟩

/-- Under any interleaving the entries are never lost, the searches find what the
semaphores promise, `get` takes the foremost complete message, and no message is
received twice or changed. -/
theorem mqueue_delivers_once (maxmsgs : Nat) (s : Mqueue T B) (reach : (machine T B maxmsgs).Reach s) :
    s.fault = false ∧ (s.q ++ s.freelist).Perm (List.range maxmsgs) ∧
    (s.q.Pairwise fun a b => s.priority b ≤ s.priority a) ∧
    (∀ t m, s.phase t = .putFree m → ∃ e rest, unlinkIdle s.busy s.freelist = some (e, rest) ∧
      (s.advance t).phase t = .putCopy e m) ∧
    (∀ t, s.phase t = .getFull → ∃ e rest, unlinkIdle s.busy s.q = some (e, rest) ∧
      (s.advance t).phase t = .getCopy e ∧ e ∈ s.q ∧ s.busy e = false ∧
      ∀ x ∈ s.q, x ≠ e → s.busy x = false → s.Ahead e x) ∧
    (∀ t e, s.phase t = .getCopy e → s.sent[s.stamp e]? = some (s.entry e).message) ∧
    (s.received.map Prod.fst).Nodup ∧ (∀ k m, (k, m) ∈ s.received → s.sent[k]? = some m) ∧
    ∀ k, k < s.sent.length → k ∈ s.received.map Prod.fst ∨ ∃ e, s.Carrying e ∧ s.stamp e = k := by
  obtain ⟨counted, delivered⟩ := reach_delivered reach
  refine ⟨counted.quiet, counted.parts, delivered.sorted.imp ?_, fun t m here => ?_, fun t here => ?_,
    fun t e here => delivered.complete counted here, delivered.once, delivered.own, delivered.kept⟩
  · intro a b order
    rcases order with lower | ⟨same, -⟩
    · exact lower.le
    · exact same.le
  · obtain ⟨e, rest, found⟩ := counted.free_idle (t := t) (by rw [here]; rfl)
    exact ⟨e, rest, found, by simp [Mqueue.advance, here, Mqueue.insert, found, setPhase]⟩
  · obtain ⟨e, rest, found⟩ := counted.full_idle (t := t) (by rw [here]; rfl)
    exact ⟨e, rest, found, by simp [Mqueue.advance, here, Mqueue.unlink, found, setPhase], delivered.unlink_first found⟩

/-- Two puts overlap: thread 0 has yet to copy its message when thread 1 has put one of
higher priority, which thread 2 then gets. -/
def overlap : List (MqueueEvent (Fin 3) Nat) :=
  [.put 0 ⟨[7], 1⟩, .advance 0, .put 1 ⟨[8, 9], 4⟩, .advance 1, .advance 1, .advance 1, .advance 1, .get 2, .advance 2,
    .advance 2]

theorem mqueue_delivers_once_overlap :
    (overlap.foldl step (initial 2 fun _ => ⟨0, true, 0, fun _ => 0⟩)).received = [(1, ⟨[8, 9], 4⟩)] ∧
      (overlap.foldl step (initial 2 fun _ => ⟨0, true, 0, fun _ => 0⟩)).sent[1]? = some ⟨[8, 9], 4⟩ := by
  have run := mqueue_delivers_once 2 (overlap.foldl step (initial 2 fun _ => ⟨0, true, 0, fun _ => 0⟩))
    (Machine.Reach.run (.start ⟨_, rfl⟩) (by decide))
  have received : (overlap.foldl step (initial 2 fun _ => ⟨0, true, 0, fun _ => 0⟩)).received = [(1, ⟨[8, 9], 4⟩)] := by
    decide
  exact ⟨received, run.2.2.2.2.2.2.2.1 1 _ (by rw [received]; exact mem_singleton_self _)⟩

end Mqueue

end Ecos
