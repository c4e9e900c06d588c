import Mathlib.Data.List.Nodup
import Ecos.Lib.Chain
import Ecos.Lib.Machine

namespace Ecos

/-- Where `call_pending_DSRs_inner` is: not called, at the head of its loop, or in the
DSR of `intr`, with its `next` in a local variable. -/
inductive DsrPhase (I : Type)
  | idle | loop | running (intr : I) (next : Option I)
  deriving DecidableEq

/-- The interrupt objects and the list of those with DSRs to call.

The last five fields record the history: how often each object was posted and the sum of
the counts passed to its DSR, how many posts there were in all, which of them was the
first that the object was not yet called for, and the calls, each with that number. -/
structure Dsrs (I : Type) where
  dsrCount : I → BitVec 32
  nextDsr : I → Option I
  dsrList : Option I
  dsrListTail : Option I
  phase : DsrPhase I
  posted : I → Nat
  passed : I → Nat
  posts : Nat
  first : I → Nat
  calls : List (I × Nat)

namespace Dsrs
variable {I : Type} [DecidableEq I]

/-- The lists as `post_dsr` leaves them when it adds an object. -/
def enlist (fifo : Bool) (s : Dsrs I) (i : I) : Dsrs I :=
  if fifo then
    match s.dsrListTail with
    | some tail => { s with dsrListTail := some i, nextDsr := Function.update s.nextDsr tail (some i) }
    | none => { s with dsrListTail := some i, dsrList := some i }
  else { s with nextDsr := Function.update s.nextDsr i s.dsrList, dsrList := some i }

def postDsr (fifo : Bool) (s : Dsrs I) (i : I) : Dsrs I :=
  let fresh : Bool := s.dsrCount i = 0
  let s := { s with
    dsrCount := Function.update s.dsrCount i (s.dsrCount i + 1)
    posted := Function.update s.posted i (s.posted i + 1)
    posts := s.posts + 1
    first := if fresh then Function.update s.first i s.posts else s.first }
  if fresh then s.enlist fifo i else s

/-- With interrupts disabled: take the count of an object, then call its DSR with it. -/
def take (s : Dsrs I) (i : I) (next : Option I) : Dsrs I :=
  { s with
    dsrCount := Function.update s.dsrCount i 0
    phase := .running i next
    passed := Function.update s.passed i (s.passed i + (s.dsrCount i).toNat)
    calls := s.calls ++ [(i, s.first i)] }

/-- A turn of the loop of the FIFO organisation. -/
def takeFifo (s : Dsrs I) (i : I) : Dsrs I :=
  { s.take i (s.nextDsr i) with nextDsr := Function.update s.nextDsr i none }

/-- The start of `call_pending_DSRs_inner`; the FIFO organisation detaches the list. -/
def begin (fifo : Bool) (s : Dsrs I) : Dsrs I :=
  if fifo then
    match s.dsrList with
    | some i => takeFifo { s with dsrList := none, dsrListTail := none } i
    | none => s
  else { s with phase := .loop }

/-- `call_pending_DSRs_inner` goes on by one step. -/
def advance (fifo : Bool) (s : Dsrs I) : Dsrs I :=
  match s.phase with
  | .idle => s
  | .loop =>
    match s.dsrList with
    | some i => { s.take i none with dsrList := s.nextDsr i }
    | none => { s with phase := .idle }
  | .running _ next =>
    if fifo then
      match next with
      | some i => s.takeFifo i
      | none => { s with phase := .idle }
    else { s with phase := .loop }

end Dsrs

/-- What can happen; an interrupt can post an object at every step. -/
inductive DsrEvent (I : Type)
  | post (i : I) | begin | advance

namespace Dsrs
variable {I : Type} [DecidableEq I]

/-- The scheduler calls for DSRs when there are any. -/
def Enabled (s : Dsrs I) : DsrEvent I → Prop
  | .post _ | .advance => True
  | .begin => s.phase = .idle ∧ s.dsrList ≠ none

instance (s : Dsrs I) : ∀ e, Decidable (s.Enabled e)
  | .post _ | .advance => inferInstanceAs (Decidable True)
  | .begin => inferInstanceAs (Decidable (_ ∧ _))

def step (fifo : Bool) (s : Dsrs I) : DsrEvent I → Dsrs I
  | .post i => s.postDsr fifo i
  | .begin => s.begin fifo
  | .advance => s.advance fifo

def initial : Dsrs I :=
  ⟨fun _ => 0, fun _ => none, none, none, .idle, fun _ => 0, fun _ => 0, 0, fun _ => 0, []⟩

/-- The objects that the running call has yet to come to. -/
def rest (s : Dsrs I) : Option I :=
  match s.phase with
  | .running _ next => next
  | _ => none

/-- All runs in which events meet `Ok` as well. -/
def machine (I : Type) [DecidableEq I] (fifo : Bool) (Ok : Dsrs I → DsrEvent I → Prop) : Machine (Dsrs I) :=
  .guided (fun s => s = initial) (fun s e => s.Enabled e ∧ Ok s e) (step fifo)

end Dsrs

open Function (update update_of_ne update_self)
open List Nat

namespace Dsrs
variable {I : Type} [DecidableEq I] {fifo : Bool} {s s' : Dsrs I} {i : I} {queue : List I}

/-- The posts of every object are passed to its DSR or still counted, in which case it is
in the queue, once; and with FIFO the calls made and to be made are in the order of the
first posts they are for. -/
structure Accounted (fifo : Bool) (s : Dsrs I) (queue : List I) : Prop where
  nodup : queue.Nodup
  mem : ∀ i, i ∈ queue ↔ s.dsrCount i ≠ 0
  count : ∀ i, s.passed i + (s.dsrCount i).toNat = s.posted i
  order : fifo = true → (s.calls.map Prod.snd ++ queue.map s.first).Pairwise (· < ·)
  recent : fifo = true → ∀ k ∈ s.calls.map Prod.snd ++ queue.map s.first, k < s.posts

theorem Accounted.congr (accounted : Accounted fifo s queue) (dsrCount : s'.dsrCount = s.dsrCount)
    (posted : s'.posted = s.posted) (passed : s'.passed = s.passed) (posts : s'.posts = s.posts) (first : s'.first =
      s.first)
    (calls : s'.calls = s.calls) : Accounted fifo s' queue := by
  obtain ⟨nodup, mem, count, order, recent⟩ := accounted
  refine ⟨nodup, ?_, ?_, ?_, ?_⟩
  · rwa [dsrCount]
  · rwa [dsrCount, posted, passed]
  · rwa [first, calls]
  · rwa [first, calls, posts]

theorem Accounted.take (accounted : Accounted fifo s (i :: queue)) (next : Option I) : Accounted fifo
    (s.take i next) queue := by
  obtain ⟨absent, nodup⟩ := nodup_cons.mp accounted.nodup
  have calls : (s.take i next).calls.map Prod.snd ++ queue.map s.first =
      s.calls.map Prod.snd ++ (i :: queue).map s.first := by
    simp [Dsrs.take]
  refine ⟨nodup, fun j => ?_, fun j => ?_, fun on => ?_, fun on => ?_⟩
  · by_cases same : j = i
    · subst same
      simp [Dsrs.take, absent]
    · have before := accounted.mem j
      simpa [Dsrs.take, same] using before
  · have before := accounted.count j
    by_cases same : j = i
    · subst same
      simpa [Dsrs.take] using before
    · simpa [Dsrs.take, same] using before
  · exact calls ▸ accounted.order on
  · exact calls ▸ accounted.recent on

theorem postDsr_enlist (fresh : s.dsrCount i = 0) : s.postDsr fifo i = enlist fifo { s with
      dsrCount := update s.dsrCount i 1
      posted := update s.posted i (s.posted i + 1)
      posts := s.posts + 1
      first := update s.first i s.posts } i := by
  simp [postDsr, fresh]

theorem postDsr_again (counted : s.dsrCount i ≠ 0) : s.postDsr fifo i = { s with
      dsrCount := update s.dsrCount i (s.dsrCount i + 1)
      posted := update s.posted i (s.posted i + 1)
      posts := s.posts + 1 } := by
  simp only [postDsr, counted, decide_false, Bool.false_eq_true, if_false]

theorem succ_toNat {c : BitVec 32} (room : c ≠ BitVec.allOnes 32) : (c + 1).toNat = c.toNat + 1 := by
  have below : c.toNat ≠ 2 ^ 32 - 1 := fun max => room (BitVec.eq_of_toNat_eq (by simpa using max))
  rw [BitVec.toNat_add]
  have one : (1 : BitVec 32).toNat = 1 := rfl
  omega

theorem Accounted.again (accounted : Accounted fifo s queue) (counted : s.dsrCount i ≠ 0)
    (room : s.dsrCount i ≠ BitVec.allOnes 32) : Accounted fifo (s.postDsr fifo i) queue := by
  have more := succ_toNat room
  rw [postDsr_again counted]
  refine ⟨accounted.nodup, fun j => ?_, fun j => ?_, accounted.order, fun on k member => ?_⟩
  · by_cases same : j = i
    · subst same
      have still : s.dsrCount j + 1 ≠ 0 := fun zero => by
        rw [zero] at more
        simp at more
      simp only [accounted.mem, update_self]
      exact iff_of_true counted still
    · simp [accounted.mem, same]
  · have before := accounted.count j
    by_cases same : j = i
    · subst same
      simp only [update_self, more]
      omega
    · simpa [same] using before
  · exact lt_succ_of_lt (accounted.recent on k member)

theorem Accounted.fresh (accounted : Accounted fifo s queue) (fresh : s.dsrCount i = 0) {queue' : List I}
    (perm : queue'.Perm (i :: queue)) (last : fifo = true → queue' = queue ++ [i])
    (dsrCount : s'.dsrCount = update s.dsrCount i 1)
    (posted : s'.posted = update s.posted i (s.posted i + 1)) (passed : s'.passed = s.passed)
    (posts : s'.posts = s.posts + 1) (first : s'.first = update s.first i s.posts) (calls : s'.calls = s.calls) :
    Accounted fifo s' queue' := by
  have absent : i ∉ queue := fun member => (accounted.mem i).mp member fresh
  have stamps : fifo = true → s'.calls.map Prod.snd ++ queue'.map s'.first =
      (s.calls.map Prod.snd ++ queue.map s.first) ++ [s.posts] := fun on => by
    have same : queue.map (update s.first i s.posts) = queue.map s.first :=
      map_congr_left fun j member => update_of_ne (fun eq : j = i => absent (eq ▸ member)) _ _
    rw [last on, calls, first, map_append, same]
    simp
  refine ⟨perm.nodup_iff.mpr (nodup_cons.mpr ⟨absent, accounted.nodup⟩), fun j => ?_, fun j => ?_, fun on => ?_,
    fun on k member => ?_⟩
  · rw [perm.mem_iff, mem_cons, accounted.mem j, dsrCount]
    by_cases same : j = i
    · subst same
      simp
    · simp [same]
  · have before := accounted.count j
    rw [dsrCount, posted, passed]
    by_cases same : j = i
    · subst same
      have zero : (s.dsrCount j).toNat = 0 := by rw [fresh]; rfl
      have one : (1 : BitVec 32).toNat = 1 := rfl
      simp only [update_self]
      omega
    · simpa [same] using before
  · rw [stamps on]
    refine pairwise_append.mpr ⟨accounted.order on, pairwise_singleton .., fun k before k' new => ?_⟩
    rw [mem_singleton.mp new]
    exact accounted.recent on k before
  · rw [posts]
    rcases mem_append.mp (stamps on ▸ member) with before | new
    · exact lt_succ_of_lt (accounted.recent on k before)
    · rw [mem_singleton.mp new]
      exact lt_succ_self _

/-- The two lists as they are linked: `chain` is what the running call has yet to come to. -/
structure Linked (fifo : Bool) (s : Dsrs I) (chain pending : List I) : Prop where
  chained : Chain s.nextDsr s.rest chain
  pended : Chain s.nextDsr s.dsrList pending
  tail : fifo = true → s.dsrListTail = pending.getLast?
  ends : fifo = true → ∀ i, s.dsrCount i = 0 → s.nextDsr i = none
  detached : fifo = false → s.rest = none
  phase : fifo = true → s.phase ≠ .loop

def Sound (fifo : Bool) (s : Dsrs I) : Prop :=
  ∃ chain pending, Accounted fifo s (chain ++ pending) ∧ Linked fifo s chain pending

variable {chain pending : List I}

theorem Sound.postFifo (accounted : Accounted true s (chain ++ pending)) (linked : Linked true s chain pending)
    (fresh : s.dsrCount i = 0) : Sound true (s.postDsr true i) := by
  have absent : i ∉ chain ∧ i ∉ pending := by
    have out : i ∉ chain ++ pending := fun member => (accounted.mem i).mp member fresh
    simpa [mem_append, not_or] using out
  have apart := nodup_append.mp accounted.nodup
  have ending := linked.ends rfl i fresh
  have perm : (chain ++ (pending ++ [i])).Perm (i :: (chain ++ pending)) := by
    rw [← append_assoc]
    exact perm_append_singleton ..
  refine ⟨chain, pending ++ [i], ?_⟩
  rw [postDsr_enlist fresh]
  unfold enlist
  cases tail : s.dsrListTail with
  | none =>
    have empty : pending = [] := getLast?_eq_none_iff.mp ((linked.tail rfl).symm.trans tail)
    subst empty
    refine ⟨accounted.fresh fresh perm (fun _ => (append_assoc ..).symm) rfl rfl rfl rfl rfl rfl, ?_⟩
    refine ⟨linked.chained, ⟨rfl, ending⟩, fun _ => rfl, fun _ j zero => linked.ends rfl j ?_, nofun, linked.phase⟩
    by_cases same : j = i
    · exact same ▸ fresh
    · simpa [same] using zero
  | some t =>
    have last : pending.getLast? = some t := (linked.tail rfl).symm.trans tail
    have onList : t ∈ pending := mem_of_getLast? last
    have other : i ≠ t := fun same => absent.2 (same ▸ onList)
    refine ⟨accounted.fresh fresh perm (fun _ => (append_assoc ..).symm) rfl rfl rfl rfl rfl rfl, ?_⟩
    refine ⟨linked.chained.congr fun j member => ?_, ?_, fun _ => by simp, fun _ j zero => ?_, nofun, linked.phase⟩
    · exact update_of_ne (apart.2.2 j member t onList) _ _
    · refine linked.pended.append last apart.2.1 (update_self ..) ?_ fun j _ ne => update_of_ne ne _ _
      exact (update_of_ne other _ _).trans ending
    · by_cases same : j = i
      · subst same
        simp at zero
      · have zero : s.dsrCount j = 0 := by simpa [same] using zero
        have different : j ≠ t := fun eq => (accounted.mem t).mp (mem_append_right _ onList) (eq ▸ zero)
        exact (update_of_ne different _ _).trans (linked.ends rfl j zero)

theorem Sound.postLifo (accounted : Accounted false s (chain ++ pending)) (linked : Linked false s chain pending)
    (fresh : s.dsrCount i = 0) : Sound false (s.postDsr false i) := by
  have none := linked.detached rfl
  obtain rfl : chain = [] := Chain.nil_of_none (none ▸ linked.chained)
  have absent : i ∉ pending := fun member => (accounted.mem i).mp member fresh
  refine ⟨[], i :: pending, ?_⟩
  rw [postDsr_enlist fresh]
  refine ⟨accounted.fresh fresh (.refl _) nofun rfl rfl rfl rfl rfl rfl, ?_⟩
  refine ⟨none, ⟨rfl, ?_⟩, nofun, nofun, fun _ => none, nofun⟩
  show Chain (update s.nextDsr i s.dsrList) (update s.nextDsr i s.dsrList i) pending
  rw [update_self]
  exact linked.pended.congr fun j member => update_of_ne (fun eq : j = i => absent (eq ▸ member)) _ _

theorem Sound.post (sound : Sound fifo s) (room : s.dsrCount i ≠ BitVec.allOnes 32) : Sound fifo
    (s.postDsr fifo i) := by
  obtain ⟨chain, pending, accounted, linked⟩ := sound
  by_cases fresh : s.dsrCount i = 0
  · cases fifo with
    | true => exact .postFifo accounted linked fresh
    | false => exact .postLifo accounted linked fresh
  · refine ⟨chain, pending, accounted.again fresh room, ?_⟩
    rw [postDsr_again fresh]
    refine ⟨linked.chained, linked.pended, linked.tail, fun on j zero => linked.ends on j ?_, linked.detached,
      linked.phase⟩
    by_cases same : j = i
    · subst same
      have more := succ_toNat room
      have zero : s.dsrCount j + 1 = 0 := by simpa using zero
      rw [zero] at more
      simp at more
    · simpa [same] using zero

theorem Sound.takeFifo (accounted : Accounted true s (i :: (chain ++ pending)))
    (chained : Chain s.nextDsr (s.nextDsr i) chain)
    (pended : Chain s.nextDsr s.dsrList pending) (tail : s.dsrListTail = pending.getLast?)
    (ends : ∀ i, s.dsrCount i = 0 → s.nextDsr i = none) : Sound true (s.takeFifo i) := by
  have absent := (nodup_cons.mp accounted.nodup).1
  have kept : ∀ j ∈ chain ++ pending, update s.nextDsr i none j = s.nextDsr j :=
    fun j member => update_of_ne (fun eq : j = i => absent (eq ▸ member)) _ _
  refine ⟨chain, pending, (accounted.take (s.nextDsr i)).congr rfl rfl rfl rfl rfl rfl, ?_⟩
  refine ⟨chained.congr fun j member => kept j (mem_append_left _ member),
    pended.congr fun j member => kept j (mem_append_right _ member), fun _ => tail, fun _ j zero => ?_, nofun,
      fun _ => ?_⟩
  · by_cases same : j = i
    · subst same
      simp [Dsrs.takeFifo]
    · have zero : s.dsrCount j = 0 := by simpa [Dsrs.takeFifo, Dsrs.take, same] using zero
      simpa [Dsrs.takeFifo, same] using ends j zero
  · simp [Dsrs.takeFifo, Dsrs.take]

theorem Sound.begin (sound : Sound fifo s) (idle : s.phase = .idle) : Sound fifo (s.begin fifo) := by
  obtain ⟨chain, pending, accounted, linked⟩ := sound
  have none : s.rest = none := by simp [rest, idle]
  obtain rfl : chain = [] := Chain.nil_of_none (none ▸ linked.chained)
  unfold Dsrs.begin
  cases fifo with
  | true =>
    simp only [if_true]
    split
    · next i first =>
      obtain ⟨remaining, rfl, chained⟩ := Chain.cons_of_some (first ▸ linked.pended)
      have joined : Accounted true { s with dsrList := Option.none, dsrListTail := Option.none }
          (i :: (remaining ++ [])) := by
        rw [append_nil]
        exact accounted.congr rfl rfl rfl rfl rfl rfl
      exact Sound.takeFifo joined chained rfl rfl (linked.ends rfl)
    · exact ⟨[], pending, accounted, linked⟩
  | false =>
    refine ⟨[], pending, accounted.congr rfl rfl rfl rfl rfl rfl, ?_⟩
    exact ⟨rfl, linked.pended, nofun, nofun, fun _ => rfl, nofun⟩

theorem Sound.advance (sound : Sound fifo s) : Sound fifo (s.advance fifo) := by
  obtain ⟨chain, pending, accounted, linked⟩ := sound
  unfold Dsrs.advance
  split
  · exact ⟨chain, pending, accounted, linked⟩
  · next atLoop =>
    have lifo : fifo = false := by
      by_contra on
      exact linked.phase (by simpa using on) atLoop
    subst lifo
    obtain rfl : chain = [] := Chain.nil_of_none (linked.detached rfl ▸ linked.chained)
    split
    · next i first =>
      obtain ⟨remaining, rfl, pended⟩ := Chain.cons_of_some (first ▸ linked.pended)
      refine ⟨[], remaining, (accounted.take none).congr rfl rfl rfl rfl rfl rfl, ?_⟩
      exact ⟨rfl, pended, nofun, nofun, fun _ => rfl, nofun⟩
    · refine ⟨[], pending, accounted.congr rfl rfl rfl rfl rfl rfl, ?_⟩
      exact ⟨rfl, linked.pended, nofun, nofun, fun _ => rfl, nofun⟩
  · next intr next inside =>
    have here : s.rest = next := by simp [rest, inside]
    cases fifo with
    | true =>
      simp only [if_true]
      split
      · next i =>
        obtain ⟨remaining, rfl, chained⟩ := Chain.cons_of_some (here ▸ linked.chained)
        exact Sound.takeFifo accounted chained linked.pended (linked.tail rfl) (linked.ends rfl)
      · obtain rfl : chain = [] := Chain.nil_of_none (here ▸ linked.chained)
        refine ⟨[], pending, accounted.congr rfl rfl rfl rfl rfl rfl, ?_⟩
        exact ⟨rfl, linked.pended, linked.tail, linked.ends, nofun, by simp⟩
    | false =>
      obtain rfl : chain = [] := Chain.nil_of_none (linked.detached rfl ▸ linked.chained)
      refine ⟨[], pending, accounted.congr rfl rfl rfl rfl rfl rfl, ?_⟩
      exact ⟨rfl, linked.pended, nofun, nofun, fun _ => rfl, nofun⟩

/-- No object is posted whose count is at its largest value. -/
def Room (s : Dsrs I) : DsrEvent I → Prop
  | .post i => s.dsrCount i ≠ BitVec.allOnes 32
  | _ => True

instance (s : Dsrs I) : ∀ e, Decidable (s.Room e)
  | .post _ => inferInstanceAs (Decidable (_ ≠ _))
  | .begin | .advance => inferInstanceAs (Decidable True)

theorem Sound.initial : Sound fifo (initial : Dsrs I) := by
  refine ⟨[], [], ⟨.nil, fun i => ?_, fun i => rfl, fun _ => .nil, nofun⟩, ?_⟩
  · simp [Dsrs.initial]
  · exact ⟨rfl, rfl, fun _ => rfl, fun _ _ _ => rfl, fun _ => rfl, fun _ => by simp [Dsrs.initial]⟩

theorem reach_sound (reach : (machine I fifo Room).Reach s) : Sound fifo s := by
  refine reach.kept (P := Sound fifo) ?_ fun s e sound ok => ?_
  · rintro s rfl
    exact .initial
  · cases e with
    | post i => exact sound.post ok.2
    | begin => exact sound.begin ok.1.1
    | advance => exact sound.advance

/-- Posts are neither lost nor repeated, whatever the interleaving: what was passed to the
DSRs and what is still counted are the posts; the objects with a count are on the pending
list or in the chain being worked off, once; and with FIFO the calls made, and then those
to be made, are in the order of the first post each is for. -/
theorem dsr_posts_accounted (fifo : Bool) (s : Dsrs I) (reach : (machine I fifo Room).Reach s) :
    (∀ i, s.passed i + (s.dsrCount i).toNat = s.posted i) ∧
    ∃ chain pending, Chain s.nextDsr s.rest chain ∧ Chain s.nextDsr s.dsrList pending ∧ (chain ++ pending).Nodup ∧
      (∀ i, (i ∈ chain ∨ i ∈ pending) ↔ s.dsrCount i ≠ 0) ∧
      (fifo = true → (s.calls.map Prod.snd ++ (chain ++ pending).map s.first).Pairwise (· < ·)) := by
  obtain ⟨chain, pending, accounted, linked⟩ := reach_sound reach
  refine ⟨accounted.count, chain, pending, linked.chained, linked.pended, accounted.nodup, fun i => ?_, accounted.order⟩
  rw [← mem_append]
  exact accounted.mem i

/-- Object 0 is posted again while its DSR runs, and object 1 while it waits in the chain. -/
def reposted : List (DsrEvent (Fin 2)) := [.post 0, .post 1, .begin, .post 1, .post 0, .advance]

theorem dsr_posts_accounted_reposted :
    (reposted.foldl (step true) initial).passed 1 = 2 ∧
      (reposted.foldl (step true) initial).passed 1 + ((reposted.foldl (step true) initial).dsrCount 1).toNat =
        (reposted.foldl (step true) initial).posted 1 := by
  have run := dsr_posts_accounted true (reposted.foldl (step true) initial) (Machine.Reach.run (.start rfl) (by decide))
  exact ⟨by decide, run.1 1⟩

theorem postDsr_counts : (s.postDsr false i).dsrCount i = s.dsrCount i + 1 ∧
    (s.postDsr false i).posted i = s.posted i + 1 ∧
    (s.postDsr false i).passed i = s.passed i ∧ (s.dsrList ≠ none → (s.postDsr false i).dsrList ≠ none) ∧
    (s.dsrCount i = 0 → (s.postDsr false i).dsrList ≠ none) := by
  by_cases fresh : s.dsrCount i = 0
  · rw [postDsr_enlist fresh]
    simp [enlist, fresh]
  · rw [postDsr_again fresh]
    simp only [update_self]
    exact ⟨trivial, trivial, trivial, id, fun zero => absurd zero fresh⟩

theorem posted_times (n : Nat) :
    ∃ s : Dsrs Unit, (machine Unit false fun _ _ => True).Reach s ∧ s.dsrCount () = BitVec.ofNat 32 n ∧
      s.posted () = n ∧ s.passed () = 0 ∧ (0 < n → s.dsrList ≠ none) := by
  induction n with
  | zero => exact ⟨initial, .start rfl, rfl, rfl, rfl, by simp⟩
  | succ n ih =>
    obtain ⟨s, reach, count, posted, passed, listed⟩ := ih
    obtain ⟨more, again, same, stays, joins⟩ := postDsr_counts (s := s) (i := ())
    refine ⟨s.postDsr false (), .next reach ⟨.post (), ⟨trivial, trivial⟩, rfl⟩, ?_, ?_, same.trans passed, fun _ => ?_⟩
    · rw [more, count, BitVec.ofNat_add]
      rfl
    · rw [again, posted]
    · rcases Nat.eq_zero_or_pos n with rfl | pos
      · exact joins count
      · exact stays (listed pos)

/-- Posted `2 ^ 32` times before it is called, an object is on the list with a count of zero. -/
theorem count_wraps :
    ∃ s : Dsrs Unit, (machine Unit false fun _ _ => True).Reach s ∧ s.dsrCount () = 0 ∧ s.dsrList ≠ none ∧
      s.passed () + (s.dsrCount ()).toNat ≠ s.posted () := by
  obtain ⟨s, reach, count, posted, passed, listed⟩ := posted_times (2 ^ 32)
  have zero : s.dsrCount () = 0 := by
    rw [count]
    decide
  refine ⟨s, reach, zero, listed (by decide), ?_⟩
  rw [passed, zero, posted]
  decide

end Dsrs

end Ecos
