import Ecos.Posix.Signal

namespace Ecos.Posix.Signal
open Function (update update_of_ne update_self update_apply)
open List Option State
variable {T : Type} [DecidableEq T] {n : Nat}

/-- The pending masks: that of the process, and that of each thread. -/
def State.bits (s : State T n) : Option T → Sigset
  | none => s.sigPending
  | some t => s.sigpending t

/-- Generation `k` is `g`, and is pending. -/
def Ledger.Open (l : Ledger T n) (k : Nat) (g : Generation T) : Prop := l.generations[k]? = some g ∧ l.fate k = .pending

/-- The masks and the queues show what is pending. A value queued for a thread does not share the
queue, or the signal, with what another target is to take. -/
structure Books (bits : Option T → Sigset) (pool : Pool n) (l : Ledger T n) (free : List (Fin n))
    (queue : Fin 32 → List (Fin n)) : Prop where
  holds : Holds pool free queue
  filled : ∀ signo, ∀ x ∈ queue signo,
    ∃ g, l.Open (l.tag x) g ∧ g.queued = true ∧ g.info = pool.si x ∧ g.info.siSigno = signo
  queued : ∀ k g, l.Open k g → g.queued = true → ∃ x ∈ queue g.info.siSigno, l.tag x = k
  ordered : ∀ signo, (queue signo).Pairwise fun x y => l.tag x < l.tag y
  shown : ∀ target signo, sigismember (bits target) signo = true ↔
    ∃ k g, l.Open k g ∧ g.info.siSigno = signo ∧ g.target = target
  own : ∀ k g t k' g', l.Open k g → g.queued = true → g.target = some t → l.Open k' g' →
    g'.info.siSigno = g.info.siSigno → g'.target = some t
  unborn : ∀ k, l.generations.length ≤ k → l.fate k = .pending

variable {bits : Option T → Sigset} {pool : Pool n} {l l' : Ledger T n} {free rest : List (Fin n)}
  {queue : Fin 32 → List (Fin n)} {s : State T n} {t : T} {signo : Fin 32} {x : Fin n} {k : Nat} {g g' : Generation T}
  {target : Option T} {info : Siginfo} {x' : Option (Fin n)}

theorem Books.congr (books : Books bits pool l free queue) (generations : l'.generations = l.generations)
    (fate : l'.fate = l.fate) (tag : l'.tag = l.tag) : Books bits pool l' free queue := by
  cases l
  cases l'
  cases generations
  cases fate
  cases tag
  exact ⟨books.holds, books.filled, books.queued, books.ordered, books.shown, books.own, books.unborn⟩

theorem books_initial : ∃ free, Books (State.initial T n).bits (Pool.start n) Ledger.initial free fun _ => [] := by
  obtain ⟨free, holds⟩ := holds_start (n := n)
  have closed : ∀ k (g : Generation T), ¬ (Ledger.initial : Ledger T n).Open k g := by
    rintro k g ⟨born, -⟩
    simp [Ledger.initial] at born
  refine ⟨free, holds, fun _ _ mem => absurd mem not_mem_nil, fun k g opened => absurd opened (closed k g),
    fun _ => .nil, fun target signo => ?_, fun k g _ _ _ opened => absurd opened (closed k g), fun _ _ => rfl⟩
  have zero : (initial T n).bits target = 0 := by cases target <;> rfl
  rw [zero, sigismember_zero]
  simp [closed]

theorem Ledger.Open.lt (opened : l.Open k g) : k < l.generations.length := (List.getElem?_eq_some_iff.mp opened.1).1

theorem open_generate (unborn : ∀ k, l.generations.length ≤ k → l.fate k = .pending) :
    (l.generate g x').Open k g' ↔ l.Open k g' ∨ k = l.generations.length ∧ g' = g := by
  simp only [Ledger.Open, Ledger.generate, getElem?_append]
  split
  · next old =>
    have : k ≠ l.generations.length := by omega
    simp [this]
  · next new =>
    have := unborn k (by omega)
    rw [getElem?_singleton]
    split <;> grind

theorem bits_setPending : (s.setPending signo target).bits =
    update s.bits target (sigaddset (s.bits target) signo) := by
  funext u
  cases target <;> cases u <;> simp [setPending, bits, update_apply]

@[simp] theorem pool_setPending : (s.setPending signo target).pool = s.pool := by cases target <;> rfl
@[simp] theorem ledger_setPending : (s.setPending signo target).ledger = s.ledger := by cases target <;> rfl

/-- When a signal may be generated. A value needs a free object; it is queued for a thread only if the
signal is pending for nobody else; and to a queue of values for a thread nothing else is added. -/
structure State.Room (s : State T n) (signo : Fin 32) (target : Option T) : Prop where
  free : (s.sa signo).siginfo = true → s.pool.siginfoNext ≠ none
  alone : (s.sa signo).siginfo = true → ∀ t, target = some t →
    sigismember s.sigPending signo = false ∧ ∀ u, u ≠ t → sigismember (s.sigpending u) signo = false
  same : s.pool.pending signo ≠ none → sigismember s.sigPending signo = false →
    ∃ t, target = some t ∧ sigismember (s.sigpending t) signo = true

theorem Books.own_generate (books : Books s.bits s.pool s.ledger free queue) (room : s.Room info.siSigno target)
    (x' : Option (Fin n)) (new : g = ⟨info, target, (s.sa info.siSigno).siginfo⟩) :
    ∀ k g' t k' g'', (s.ledger.generate g x').Open k g' → g'.queued = true → g'.target = some t →
      (s.ledger.generate g x').Open k' g'' → g''.info.siSigno = g'.info.siSigno → g''.target = some t := by
  subst new
  intro k g' t k' g'' opened queued toThread opened' same
  rw [open_generate books.unborn] at opened opened'
  have unseen : ∀ {u : Option T}, sigismember (s.bits u) info.siSigno = false → ∀ k g, s.ledger.Open k g →
      g.info.siSigno = info.siSigno → g.target ≠ u := by
    intro u off k g opened signo isTarget
    have := (books.shown u info.siSigno).mpr ⟨k, g, opened, signo, isTarget⟩
    rw [off] at this
    cases this
  rcases opened with opened | ⟨rfl, rfl⟩
  · rcases opened' with opened' | ⟨rfl, rfl⟩
    · exact books.own k g' t k' g'' opened queued toThread opened' same
    · dsimp only at same ⊢
      obtain ⟨x, inside, -⟩ := books.queued k g' opened queued
      have used : s.pool.pending info.siSigno ≠ none := fun empty => by
        simp [same ▸ books.holds.pending_none.mp empty] at inside
      have noProcess : sigismember s.sigPending info.siSigno = false := by
        by_contra on
        obtain ⟨k', g'', opened', same', toProcess⟩ := (books.shown none info.siSigno).mp (Bool.not_eq_false _ ▸ on)
        have := books.own k g' t k' g'' opened queued toThread opened' (same'.trans same)
        simp [toProcess] at this
      obtain ⟨t', isTarget, on⟩ := room.same used noProcess
      obtain ⟨k', g'', opened', same', toThread'⟩ := (books.shown (some t') info.siSigno).mp on
      have := books.own k g' t k' g'' opened queued toThread opened' (same'.trans same)
      rw [isTarget, ← toThread', this]
  · dsimp only at queued toThread same
    rcases opened' with opened' | ⟨rfl, rfl⟩
    · obtain ⟨noProcess, noOther⟩ := room.alone queued t toThread
      cases isTarget : g''.target with
      | none => exact absurd isTarget (unseen (u := none) noProcess k' g'' opened' same)
      | some u =>
        by_contra other
        exact unseen (u := some u) (noOther u fun equal => other (by rw [equal])) k' g'' opened' same isTarget
    · exact toThread

/-- The books after a generation, when a value is queued at the end of its queue. -/
theorem Books.generate (books : Books s.bits s.pool s.ledger free queue) (room : s.Room info.siSigno target) :
    (s.cygSigqueue info target).1 = true ∧ ∃ free' queue', Books (s.cygSigqueue info target).2.bits
      (s.cygSigqueue info target).2.pool (s.cygSigqueue info target).2.ledger free' queue' := by
  have shown : ∀ (x' : Option (Fin n)) (q : Bool) u signo, sigismember
      (update s.bits target (sigaddset (s.bits target) info.siSigno) u) signo = true ↔
      ∃ k g, (s.ledger.generate ⟨info, target, q⟩ x').Open k g ∧ g.info.siSigno = signo ∧ g.target = u := by
    intro x' q u signo
    have old := books.shown u signo
    simp only [open_generate books.unborn]
    by_cases here : u = target
    · subst here
      simp only [update_self, sigismember_sigaddset, Bool.or_eq_true, decide_eq_true_eq, old]
      constructor
      · rintro (⟨k, g, opened, rest⟩ | rfl)
        · exact ⟨k, g, .inl opened, rest⟩
        · exact ⟨_, _, .inr ⟨rfl, rfl⟩, rfl, rfl⟩
      · rintro ⟨k, g, opened | ⟨rfl, rfl⟩, same, isTarget⟩
        · exact .inl ⟨k, g, opened, same, isTarget⟩
        · exact .inr same.symm
    · rw [update_of_ne here, old]
      refine exists_congr fun k => exists_congr fun g => and_congr_left fun ⟨_, isTarget⟩ => ?_
      refine (or_iff_left ?_).symm
      rintro ⟨-, rfl⟩
      exact here isTarget.symm
  have unborn : ∀ (g : Generation T) (x' : Option (Fin n)) k, (s.ledger.generate g x').generations.length ≤ k →
      (s.ledger.generate g x').fate k = .pending := fun g x' k later => books.unborn k (by
        simp only [Ledger.generate, length_append] at later
        omega)
  by_cases flag : (s.sa info.siSigno).siginfo = true
  · obtain ⟨x, free', rfl⟩ : ∃ x free', free = x :: free' := by
      cases free with
      | nil => exact absurd (books.holds.siginfoNext_none.mpr rfl) (room.free flag)
      | cons x free' => exact ⟨x, free', rfl⟩
    obtain ⟨pool, enqueued, holds, si⟩ := books.holds.enqueue info.siSigno info
    have fresh : ∀ u, x ∉ queue u := fun u mem => books.holds.apart u x mem (mem_cons_self ..)
    have own := books.own_generate room (some x) rfl
    simp only [cygSigqueue, flag, if_true, enqueued, true_and] at own ⊢
    have tagOld : ∀ u, ∀ z ∈ queue u, (s.ledger.generate ⟨info, target, true⟩ (some x)).tag z = s.ledger.tag z :=
      fun u z mem => update_of_ne (ne_of_mem_of_not_mem mem (fresh u)) _ _
    have tagNew : (s.ledger.generate ⟨info, target, true⟩ (some x)).tag x = s.ledger.generations.length :=
      update_self ..
    have siOld : ∀ u, ∀ z ∈ queue u, pool.si z = s.pool.si z := fun u z mem => by
      rw [si, update_of_ne (ne_of_mem_of_not_mem mem (fresh u))]
    have siNew : pool.si x = info := by rw [si, update_self]
    rw [bits_setPending, pool_setPending, ledger_setPending]
    refine ⟨free', _, holds, fun u z mem => ?_, fun k g opened queued => ?_, fun u => ?_, shown (some x) true, own, unborn _ _⟩
    · have inside : z ∈ queue u ∨ u = info.siSigno ∧ z = x := by
        by_cases here : u = info.siSigno
        · subst here
          simpa using mem
        · exact .inl (by rwa [update_of_ne here] at mem)
      rcases inside with inside | ⟨rfl, rfl⟩
      · obtain ⟨g, opened, rest⟩ := books.filled u z inside
        rw [tagOld u z inside, siOld u z inside]
        exact ⟨g, (open_generate books.unborn).mpr (.inl opened), rest⟩
      · rw [tagNew, siNew]
        exact ⟨_, (open_generate books.unborn).mpr (.inr ⟨rfl, rfl⟩), rfl, rfl, rfl⟩
    · rcases (open_generate books.unborn).mp opened with opened | ⟨rfl, rfl⟩
      · obtain ⟨z, inside, tag⟩ := books.queued k g opened queued
        refine ⟨z, ?_, (tagOld _ z inside).trans tag⟩
        simp only [update_apply]
        split
        · next here => exact mem_append_left _ (here ▸ inside)
        · exact inside
      · exact ⟨x, by simp, tagNew⟩
    · have old := books.ordered u
      by_cases here : u = info.siSigno
      · subst here
        rw [update_self, pairwise_append]
        refine ⟨old.imp_of_mem fun {a b} inA inB less => ?_, pairwise_singleton .., fun a inA b isNew => ?_⟩
        · rwa [tagOld _ a inA, tagOld _ b inB]
        · obtain rfl := mem_singleton.mp isNew
          obtain ⟨g, opened, -⟩ := books.filled _ a inA
          rw [tagOld _ a inA, tagNew]
          exact opened.lt
      · rw [update_of_ne here]
        refine old.imp_of_mem fun {a b} inA inB less => ?_
        rwa [tagOld _ a inA, tagOld _ b inB]
  · have own := books.own_generate room none rfl
    simp only [cygSigqueue, flag, if_false, true_and, Bool.false_eq_true] at own ⊢
    rw [bits_setPending, pool_setPending, ledger_setPending]
    refine ⟨free, queue, books.holds, fun u z mem => ?_, fun k g opened queued => ?_, books.ordered, shown none false, own,
      unborn _ _⟩
    · obtain ⟨g, opened, rest⟩ := books.filled u z mem
      exact ⟨g, (open_generate books.unborn).mpr (.inl opened), rest⟩
    · rcases (open_generate books.unborn).mp opened with opened | ⟨rfl, rfl⟩
      · exact books.queued k g opened queued
      · cases queued

variable {pool' : Pool n} {free' : List (Fin n)} {queue' : Fin 32 → List (Fin n)} {bits' : Option T → Sigset}
  {c : Bool}

theorem Books.remove (books : Books bits pool l free queue) (gone : Nat → Prop) (generations : l'.generations = l.generations)
    (tag : l'.tag = l.tag) (opened : ∀ k g, l'.Open k g ↔ l.Open k g ∧ ¬ gone k) (holds : Holds pool' free' queue')
    (si : pool'.si = pool.si) (less : ∀ u, (queue' u).Sublist (queue u))
    (kept : ∀ u, ∀ x ∈ queue u, x ∈ queue' u ↔ ¬ gone (l.tag x))
    (shown : ∀ target signo, sigismember (bits' target) signo = true ↔
      ∃ k g, l'.Open k g ∧ g.info.siSigno = signo ∧ g.target = target)
    (unborn : ∀ k, l.generations.length ≤ k → l'.fate k = .pending) : Books bits' pool' l' free' queue' where
  holds := holds
  filled u x inside := by
    have old := (less u).subset inside
    obtain ⟨g, isOpen, queued, isInfo, signo⟩ := books.filled u x old
    rw [tag, si]
    exact ⟨g, (opened _ g).mpr ⟨isOpen, (kept u x old).mp inside⟩, queued, isInfo, signo⟩
  queued k g isOpen queued := by
    obtain ⟨isOpen, still⟩ := (opened k g).mp isOpen
    obtain ⟨x, inside, rfl⟩ := books.queued k g isOpen queued
    exact ⟨x, (kept _ x inside).mpr still, by rw [tag]⟩
  ordered u := by
    rw [tag]
    exact (books.ordered u).sublist (less u)
  shown := shown
  own k g t k' g' isOpen queued toThread isOpen' :=
    books.own k g t k' g' ((opened k g).mp isOpen).1 queued toThread ((opened k' g').mp isOpen').1
  unborn := generations ▸ unborn

theorem merged_iff (t : T) (signo : Fin 32) (isOpen : l.Open k g) : l.merged t signo k = true ↔
    g.info.siSigno = signo ∧ g.queued = false ∧ (g.target = none ∨ g.target = some t) := by
  simp [Ledger.merged, isOpen.1, and_assoc]

theorem open_take : (l.take t info signo x' c).Open k g ↔
    l.Open k g ∧ ¬ (x'.map l.tag = some k ∨ c = true ∧ l.merged t signo k = true) := by
  simp only [Ledger.Open, Ledger.take]
  split <;> grind

theorem open_discard : (l.discard t signo).Open k g ↔
    l.Open k g ∧ ¬ (l.merged t signo k = true ∨ ∃ g ∈ l.generations[k]?, g.info.siSigno = signo ∧ g.queued = true) := by
  simp only [Ledger.Open, Ledger.discard]
  split <;> grind

theorem Ledger.Open.eq (isOpen : l.Open k g) (isOpen' : l.Open k g') : g = g' :=
  some.inj (isOpen.1.symm.trans isOpen'.1)

theorem Books.own_of_pending (books : Books bits pool l free queue) {u : Option T} (fits : u = none ∨ u = some t)
    (on : sigismember (bits u) signo = true) (isOpen : l.Open k g) (queued : g.queued = true)
    (same : g.info.siSigno = signo) : g.target = none ∨ g.target = some t := by
  obtain ⟨k', g', isOpen', same', isTarget⟩ := (books.shown u signo).mp on
  cases toThread : g.target with
  | none => exact .inl rfl
  | some w =>
    have := books.own k g w k' g' isOpen queued toThread isOpen' (same'.trans same.symm)
    rw [← this, isTarget]
    exact fits

theorem Books.tag_injective (books : Books bits pool l free queue) {u v : Fin 32} {x y : Fin n} (inX : x ∈ queue u)
    (inY : y ∈ queue v) (same : l.tag x = l.tag y) : x = y := by
  obtain ⟨g, isOpen, -, -, signo⟩ := books.filled u x inX
  obtain ⟨g', isOpen', -, -, signo'⟩ := books.filled v y inY
  have isOpen'' : l.Open (l.tag x) g' := same ▸ isOpen'
  obtain rfl : u = v := by rw [← signo, ← signo', isOpen.eq isOpen'']
  have nodup : ((queue u).map l.tag).Nodup := pairwise_map.mpr ((books.ordered u).imp ne_of_lt)
  exact inj_on_of_nodup_map nodup inX inY same

/-- What a taking, or a change to `SIG_IGN`, leaves of the masks. -/
def clearBits (bits : Option T → Sigset) (t : T) (signo : Fin 32) : Option T → Sigset := fun u =>
  if u = none ∨ u = some t then sigdelset (bits u) signo else bits u

theorem clearBits_sub {u : Option T} {v : Fin 32} (on : sigismember (clearBits bits t signo u) v = true) :
    sigismember (bits u) v = true := by
  unfold clearBits at on
  split at on
  · rw [sigismember_sigdelset, Bool.and_eq_true] at on
    exact on.1
  · exact on

theorem bits_clear : (s.clear t signo).bits = clearBits s.bits t signo := by
  funext u
  cases u <;> simp [clear, bits, clearBits, update_apply]
  split
  · next same => rw [same]
  · rfl

section
variable (books : Books bits pool l free queue)
include books

theorem Books.shown_clear (gone : Nat → Prop)
    (fits : ∀ k g, l.Open k g → gone k → g.info.siSigno = signo ∧ (g.target = none ∨ g.target = some t))
    (all : ∀ k g, l.Open k g → g.info.siSigno = signo → (g.target = none ∨ g.target = some t) → gone k)
    (target : Option T) (v : Fin 32) : sigismember (clearBits bits t signo target) v = true ↔
      ∃ k g, (l.Open k g ∧ ¬ gone k) ∧ g.info.siSigno = v ∧ g.target = target := by
  by_cases here : (target = none ∨ target = some t) ∧ v = signo
  · obtain ⟨isTarget, rfl⟩ := here
    simp only [clearBits, if_pos isTarget, sigismember_sigdelset, decide_true, Bool.not_true, Bool.and_false,
      Bool.false_eq_true, false_iff]
    rintro ⟨k, g, ⟨isOpen, still⟩, rfl, rfl⟩
    exact still (all k g isOpen rfl isTarget)
  · have same : sigismember (clearBits bits t signo target) v = sigismember (bits target) v := by
      simp only [clearBits]
      split
      · next isTarget => simp [show v ≠ signo from fun equal => here ⟨isTarget, equal⟩]
      · rfl
    rw [same, books.shown]
    refine exists_congr fun k => exists_congr fun g => and_congr_left fun ⟨isSigno, isTarget⟩ =>
      (and_iff_left_of_imp fun isOpen isGone => here ?_).symm
    obtain ⟨signo', fits'⟩ := fits k g isOpen isGone
    exact ⟨isTarget ▸ fits', isSigno ▸ signo'⟩

theorem Books.shown_take (list : queue signo = x'.toList ++ rest) (cleared : c = true ↔ rest = [])
    (head : ∀ x, x' = some x → ∃ g, l.Open (l.tag x) g ∧ g.queued = true ∧ g.info.siSigno = signo ∧
      (g.target = none ∨ g.target = some t)) (target : Option T) (v : Fin 32) :
    sigismember ((if c then clearBits bits t signo else bits) target) v = true ↔ ∃ k g, (l.Open k g ∧
      ¬ (x'.map l.tag = some k ∨ c = true ∧ l.merged t signo k = true)) ∧ g.info.siSigno = v ∧ g.target = target := by
  by_cases last : rest = []
  · obtain rfl := cleared.mpr last
    rw [last, append_nil] at list
    refine books.shown_clear (fun k => x'.map l.tag = some k ∨ true = true ∧ l.merged t signo k = true)
      (fun k g isOpen => ?_) (fun k g isOpen signo' isTarget => ?_) target v
    · rintro (tagged | ⟨-, merged⟩)
      · obtain ⟨x, rfl, rfl⟩ := map_eq_some_iff.mp tagged
        obtain ⟨g', isOpen', -, same, isTarget⟩ := head x rfl
        exact isOpen.eq isOpen' ▸ ⟨same, isTarget⟩
      · exact ((merged_iff t signo isOpen).mp merged).imp_right And.right
    · by_cases queued : g.queued = true
      · obtain ⟨z, inside, rfl⟩ := books.queued k g isOpen queued
        rw [signo', list, mem_toList] at inside
        exact .inl (by rw [inside]; rfl)
      · exact .inr ⟨rfl, (merged_iff t signo isOpen).mpr ⟨signo', by simpa using queued, isTarget⟩⟩
  · have off : c = false := by simpa using mt cleared.mp last
    subst off
    simp only [Bool.false_eq_true, if_false, false_and, or_false, books.shown]
    refine ⟨?_, fun ⟨k, g, ⟨isOpen, _⟩, rest⟩ => ⟨k, g, isOpen, rest⟩⟩
    rintro ⟨k, g, isOpen, rfl, rfl⟩
    by_cases tagged : x'.map l.tag = some k
    · -- the next value of the queue keeps the bit set
      obtain ⟨x, rfl, rfl⟩ := map_eq_some_iff.mp tagged
      obtain ⟨g', isOpen', queued, same, -⟩ := head x rfl
      obtain rfl := isOpen.eq isOpen'
      obtain ⟨z, rest', rfl⟩ := exists_cons_of_ne_nil last
      have inside : z ∈ queue signo := by simp [list]
      obtain ⟨g', isOpen', queued', -, same'⟩ := books.filled signo z inside
      have apart : l.tag x ≠ l.tag z := by
        have := books.ordered signo
        rw [list] at this
        simp only [toList_some, cons_append, nil_append, pairwise_cons] at this
        exact ne_of_lt (this.1 z (mem_cons_self ..))
      refine ⟨l.tag z, g', ⟨isOpen', by simpa using apart⟩, same'.trans same.symm, ?_⟩
      cases toThread : g.target with
      | some w => exact books.own _ g w _ g' isOpen queued toThread isOpen' (same'.trans same.symm)
      | none =>
        by_contra other
        obtain ⟨w, toThread'⟩ := ne_none_iff_exists'.mp other
        have := books.own _ g' w _ g isOpen' queued' toThread' isOpen (same.trans same'.symm)
        simp [toThread] at this
    · exact ⟨k, g, ⟨isOpen, tagged⟩, rfl, rfl⟩

theorem Books.take {u : Option T} (fits : u = none ∨ u = some t)
    (on : sigismember (bits u) signo = true) (list : queue signo = x'.toList ++ rest) (empty : x' = none → rest = [])
    (holds : Holds pool' free' (update queue signo rest)) (si : pool'.si = pool.si) (cleared : c = true ↔ rest = []) :
    Books (if c then clearBits bits t signo else bits) pool' (l.take t info signo x' c) free'
      (update queue signo rest) := by
  have head : ∀ x, x' = some x → ∃ g, l.Open (l.tag x) g ∧ g.queued = true ∧ g.info.siSigno = signo ∧
      (g.target = none ∨ g.target = some t) := by
    rintro x rfl
    obtain ⟨g, isOpen, queued, -, same⟩ := books.filled signo x (by simp [list])
    exact ⟨g, isOpen, queued, same, books.own_of_pending fits on isOpen queued same⟩
  refine books.remove (fun k => x'.map l.tag = some k ∨ c = true ∧ l.merged t signo k = true) rfl rfl
    (fun k g => open_take) holds si (fun v => ?_) (fun v y inside => ?_) (fun target v => ?_) (fun k later => ?_)
  · by_cases here : v = signo
    · subst here
      rw [update_self, list]
      exact sublist_append_right ..
    · rw [update_of_ne here]
  · obtain ⟨g, isOpen, queued, -, same⟩ := books.filled v y inside
    have notMerged : l.merged t signo (l.tag y) ≠ true := by
      rw [ne_eq, merged_iff t signo isOpen, queued]
      simp
    have headOf : x'.map l.tag = some (l.tag y) ↔ x' = some y := by
      refine ⟨fun tagged => ?_, fun same => by rw [same]; rfl⟩
      obtain ⟨x, rfl, equal⟩ := map_eq_some_iff.mp tagged
      rw [books.tag_injective (by simp [list] : x ∈ queue signo) inside equal]
    simp only [notMerged, and_false, or_false, headOf, Bool.false_eq_true]
    by_cases here : v = signo
    · subst here
      have nodup := books.holds.once v
      rw [list] at inside nodup
      cases x' with
      | none => simpa using inside
      | some x =>
        grind
    · rw [update_of_ne here]
      refine iff_of_true inside fun isHead => here ?_
      exact books.holds.single v signo y inside (by simp [list, isHead])
  · rw [books.shown_take list cleared head]
    simp only [open_take]
  · have unmerged : l.merged t signo k = false := by
      rw [Ledger.merged, getElem?_eq_none later]
    have untagged : x'.map l.tag ≠ some k := by
      intro tagged
      obtain ⟨x, rfl, rfl⟩ := map_eq_some_iff.mp tagged
      obtain ⟨g, isOpen, -⟩ := head x rfl
      exact absurd isOpen.lt (Nat.not_lt.mpr later)
    refine (if_neg ?_).trans (books.unborn k later)
    rintro ⟨-, tagged | ⟨-, merged⟩⟩
    · exact untagged tagged
    · simp [unmerged] at merged

theorem Books.discard {u : Option T} (fits : u = none ∨ u = some t)
    (on : sigismember (bits u) signo = true) (holds : Holds pool' free' (update queue signo []))
    (si : pool'.si = pool.si) : Books (clearBits bits t signo) pool' (l.discard t signo) free'
      (update queue signo []) := by
  have gone : ∀ {k g}, l.Open k g → ((∃ g ∈ l.generations[k]?, g.info.siSigno = signo ∧ g.queued = true) ↔
      g.info.siSigno = signo ∧ g.queued = true) := fun isOpen => by simp [isOpen.1]
  refine books.remove (fun k => l.merged t signo k = true ∨
    ∃ g ∈ l.generations[k]?, g.info.siSigno = signo ∧ g.queued = true) rfl rfl (fun k g => open_discard) holds si
    (fun v => ?_) (fun v y inside => ?_) (fun target v => ?_) (fun k later => ?_)
  · by_cases here : v = signo
    · simp [here]
    · rw [update_of_ne here]
  · obtain ⟨g, isOpen, queued, -, same⟩ := books.filled v y inside
    rw [gone isOpen, merged_iff t signo isOpen, queued, same]
    by_cases here : v = signo <;> simp [here, inside]
  · simp only [open_discard]
    refine books.shown_clear _ (fun k g isOpen => ?_) (fun k g isOpen signo' isTarget => ?_) target v
    · rw [gone isOpen, merged_iff t signo isOpen]
      rintro (⟨same, -, isTarget⟩ | ⟨same, queued⟩)
      · exact ⟨same, isTarget⟩
      · exact ⟨same, books.own_of_pending fits on isOpen queued same⟩
    · rw [gone isOpen, merged_iff t signo isOpen]
      cases queued : g.queued
      · exact .inl ⟨signo', rfl, isTarget⟩
      · exact .inr ⟨signo', rfl⟩
  · simp [Ledger.discard, Ledger.merged, getElem?_eq_none later, books.unborn k later]

end

end Ecos.Posix.Signal
