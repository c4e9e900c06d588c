import Ecos.Posix.SignalBooks

namespace Ecos.Posix.Signal
open List Option
variable {T : Type} [DecidableEq T] {n : Nat} {l l' : Ledger T n} {stack stack' : T → List Delivery} {t : T} {info : Siginfo}
  {s : State T n} {signo : Fin 32} {wanted : Bool} {free : List (Fin n)} {queue : Fin 32 → List (Fin n)}

/-- The frame of a handler that is about to be called. -/
def Phase.awaits : Phase → Option Frame
  | .call f => some f
  | _ => none

def awaiting (stack : List Delivery) : List Frame := stack.filterMap fun d => d.phase.awaits

/-- Each receipt is for generations of its signal that were for the process or for its thread, and one
call of a handler, or one return of `sigtimedwait`, is made for it. -/
structure Tickets (l : Ledger T n) (stack : T → List Delivery) : Prop where
  born : ∀ k r, l.fate k = .taken r → ∃ g w, l.generations[k]? = some g ∧ l.receipts[r]? = some w ∧
    g.info.siSigno = w.info.siSigno ∧ (g.target = none ∨ g.target = some w.thread) ∧ (g.queued = true → w.info = g.info)
  single : ∀ k k' g g' r, l.generations[k]? = some g → l.generations[k']? = some g' → g.queued = true →
    g'.queued = true → l.fate k = .taken r → l.fate k' = .taken r → k = k'
  used : ∀ r < l.receipts.length, ∃ k, l.fate k = .taken r
  called : ∀ c ∈ l.calls, l.receipts[c.receipt]? = some ⟨c.thread, c.info⟩
  awaited : ∀ t, ∀ f ∈ awaiting (stack t), l.receipts[f.receipt]? = some ⟨t, f.lsi⟩
  settled : ∀ r w, l.receipts[r]? = some w →
    (l.calls.map Call.receipt).count r + ((awaiting (stack w.thread)).map Frame.receipt).count r = 1

theorem tickets_initial : Tickets (Ledger.initial : Ledger T n) fun _ => [] where
  born _ _ taken := by cases taken
  single _ _ _ _ _ _ _ _ _ taken := by cases taken
  used _ few := absurd few (Nat.not_lt_zero _)
  called _ mem := absurd mem not_mem_nil
  awaited _ _ mem := absurd mem not_mem_nil
  settled r w isReceipt := by simp [Ledger.initial] at isReceipt

/-- The generations may grow, what is pending may be discarded, and the stacks may change, but not in
the handlers about to be called. -/
theorem Tickets.mono (tickets : Tickets l stack) (generations : l.generations <+: l'.generations)
    (fate : ∀ k r, l'.fate k = .taken r ↔ l.fate k = .taken r) (receipts : l'.receipts = l.receipts)
    (calls : l'.calls = l.calls) (same : ∀ t, awaiting (stack' t) = awaiting (stack t)) : Tickets l' stack' := by
  have kept : ∀ {k : Nat} {g}, l.generations[k]? = some g → l'.generations[k]? = some g := by
    intro k g born
    obtain ⟨inside, rfl⟩ := List.getElem?_eq_some_iff.mp born
    obtain ⟨more, grown⟩ := generations
    rw [← grown, getElem?_append_left inside, born]
  refine ⟨fun k r taken => ?_, fun k k' g g' r isG isG' queued queued' taken taken' => ?_, fun r few => ?_, ?_, ?_, ?_⟩
  · obtain ⟨g, w, isG, rest⟩ := tickets.born k r ((fate k r).mp taken)
    exact ⟨g, w, kept isG, receipts ▸ rest⟩
  · rw [fate] at taken taken'
    obtain ⟨_, _, old, -⟩ := tickets.born k r taken
    obtain ⟨_, _, old', -⟩ := tickets.born k' r taken'
    obtain rfl := some.inj (isG.symm.trans (kept old))
    obtain rfl := some.inj (isG'.symm.trans (kept old'))
    exact tickets.single k k' _ _ r old old' queued queued' taken taken'
  · simp only [fate]
    exact tickets.used r (receipts ▸ few)
  · rw [calls, receipts]
    exact tickets.called
  · simp only [same, receipts]
    exact tickets.awaited
  · simp only [same, receipts, calls]
    exact tickets.settled

theorem Tickets.lt_of_called (tickets : Tickets l stack) {c : Call T} (mem : c ∈ l.calls) :
    c.receipt < l.receipts.length := (List.getElem?_eq_some_iff.mp (tickets.called c mem)).1

theorem Tickets.lt_of_awaited (tickets : Tickets l stack) {f : Frame} (mem : f ∈ awaiting (stack t)) :
    f.receipt < l.receipts.length := (List.getElem?_eq_some_iff.mp (tickets.awaited t f mem)).1

/-- What a taking adds to the history. -/
structure Took (l l' : Ledger T n) (t : T) (info : Siginfo) : Prop where
  generations : l'.generations = l.generations
  receipts : l'.receipts = l.receipts ++ [⟨t, info⟩]
  calls : l'.calls = l.calls
  some : ∃ k, l'.fate k = .taken l.receipts.length
  each : ∀ k, l'.fate k = l.fate k ∨ l'.fate k = .taken l.receipts.length ∧ ∃ g, l.Open k g ∧
    g.info.siSigno = info.siSigno ∧ (g.target = none ∨ g.target = Option.some t) ∧ (g.queued = true → info = g.info)
  single : ∀ k k' g g', l.Open k g → l.Open k' g' → g.queued = true → g'.queued = true →
    l'.fate k = .taken l.receipts.length → l'.fate k' = .taken l.receipts.length → k = k'

/-- A new receipt, which awaits its call. -/
theorem Tickets.take (tickets : Tickets l stack) (took : Took l l' t info) {f : Frame} (receipt : f.receipt = l.receipts.length)
    (lsi : f.lsi = info) (here : awaiting (stack' t) = f :: awaiting (stack t))
    (others : ∀ u, u ≠ t → awaiting (stack' u) = awaiting (stack u)) : Tickets l' stack' := by
  have last : l'.receipts[l.receipts.length]? = Option.some ⟨t, info⟩ := by simp [took.receipts]
  have kept : ∀ {r : Nat} {w}, l.receipts[r]? = Option.some w → l'.receipts[r]? = Option.some w := by
    intro r w isReceipt
    rw [took.receipts, List.getElem?_append_left (List.getElem?_eq_some_iff.mp isReceipt).1, isReceipt]
  have old : ∀ {k r}, l'.fate k = .taken r → r ≠ l.receipts.length → l.fate k = .taken r := by
    intro k r taken apart
    rcases took.each k with same | ⟨new, -⟩
    · rw [← same, taken]
    · rw [taken] at new
      exact absurd (Fate.taken.inj new) apart
  have notYet : ∀ k, l.fate k ≠ .taken l.receipts.length := by
    intro k taken
    obtain ⟨_, _, -, isReceipt, -⟩ := tickets.born k _ taken
    simp at isReceipt
  have fresh : ∀ u, ((awaiting (stack u)).map Frame.receipt).count l.receipts.length = 0 := fun u => by
    rw [count_eq_zero]
    intro mem
    obtain ⟨f, mem, isLast⟩ := mem_map.mp mem
    exact absurd (tickets.lt_of_awaited mem) (by omega)
  have uncalled : (l.calls.map Call.receipt).count l.receipts.length = 0 := by
    rw [count_eq_zero]
    intro mem
    obtain ⟨c, mem, isLast⟩ := mem_map.mp mem
    exact absurd (tickets.lt_of_called mem) (by omega)
  refine ⟨fun k r taken => ?_, fun k k' g g' r isG isG' queued queued' taken taken' => ?_, fun r few => ?_,
    fun c mem => ?_, fun u f' mem => ?_, fun r w isReceipt => ?_⟩
  · rw [took.generations]
    rcases took.each k with same | ⟨new, g, isOpen, signo, isTarget, isInfo⟩
    · obtain ⟨g, w, isG, isReceipt, rest⟩ := tickets.born k r (same ▸ taken)
      exact ⟨g, w, isG, kept isReceipt, rest⟩
    · obtain rfl := Fate.taken.inj (taken.symm.trans new)
      exact ⟨g, _, isOpen.1, last, signo, isTarget, isInfo⟩
  · rw [took.generations] at isG isG'
    by_cases new : r = l.receipts.length
    · subst new
      have opened : ∀ {k g}, l.generations[k]? = some g → l'.fate k = .taken l.receipts.length → l.Open k g := by
        intro k g isG taken
        rcases took.each k with same | ⟨-, g', isOpen, -⟩
        · exact absurd (same ▸ taken) (notYet k)
        · rwa [some.inj (isG.symm.trans isOpen.1)]
      exact took.single k k' g g' (opened isG taken) (opened isG' taken') queued queued' taken taken'
    · exact tickets.single k k' g g' r isG isG' queued queued' (old taken new) (old taken' new)
  · rw [took.receipts, length_append, length_singleton] at few
    by_cases new : r = l.receipts.length
    · exact new ▸ took.some
    · obtain ⟨k, taken⟩ := tickets.used r (by omega)
      refine ⟨k, ?_⟩
      rcases took.each k with same | ⟨-, g, isOpen, -⟩
      · rw [same, taken]
      · rw [isOpen.2] at taken
        cases taken
  · exact kept (tickets.called c (took.calls ▸ mem))
  · by_cases isT : u = t
    · subst isT
      rw [here] at mem
      rcases mem_cons.mp mem with rfl | mem
      · rw [receipt, last, lsi]
      · exact kept (tickets.awaited u f' mem)
    · exact kept (tickets.awaited u f' (others u isT ▸ mem))
  · have counts : ∀ u, ((awaiting (stack' u)).map Frame.receipt).count r =
        ((awaiting (stack u)).map Frame.receipt).count r + if u = t ∧ r = l.receipts.length then 1 else 0 := by
      intro u
      by_cases isT : u = t
      · subst isT
        rw [here, map_cons, count_cons, receipt]
        by_cases last : r = l.receipts.length
        · simp [last]
        · simp [last, Ne.symm last]
      · simp [others u isT, isT]
    rw [took.calls, counts]
    by_cases new : r = l.receipts.length
    · subst new
      obtain rfl := some.inj (isReceipt.symm.trans last)
      simp [uncalled, fresh]
    · have isOld : l.receipts[r]? = some w := by
        rw [took.receipts, getElem?_append] at isReceipt
        split at isReceipt
        · exact isReceipt
        · next late =>
          rw [getElem?_eq_none (by simp; omega)] at isReceipt
          cases isReceipt
      simpa [new] using tickets.settled r w isOld

theorem Tickets.call (tickets : Tickets l stack) {f : Frame} (here : awaiting (stack t) = f :: awaiting (stack' t))
    (others : ∀ u, u ≠ t → awaiting (stack' u) = awaiting (stack u)) :
    Tickets (l.call ⟨t, f.lsi, f.receipt⟩) stack' := by
  have isReceipt := tickets.awaited t f (by simp [here])
  refine ⟨tickets.born, tickets.single, tickets.used, fun c mem => ?_, fun u f' mem => ?_, fun r w isReceipt' => ?_⟩
  · rcases mem_append.mp mem with mem | new
    · exact tickets.called c mem
    · obtain rfl := mem_singleton.mp new
      exact isReceipt
  · refine tickets.awaited u f' ?_
    by_cases isT : u = t
    · subst isT
      rw [here]
      exact mem_cons_of_mem f mem
    · rwa [← others u isT]
  · have settled := tickets.settled r w isReceipt'
    simp only [Ledger.call, map_append, map_cons, map_nil, count_append, count_singleton]
    by_cases isT : w.thread = t
    · rw [isT, here, map_cons, count_cons] at settled
      rw [isT]
      omega
    · have apart : f.receipt ≠ r := by
        rintro rfl
        exact isT (some.inj (isReceipt.symm.trans isReceipt') ▸ rfl)
      rw [others w.thread isT]
      simpa [apart] using settled

end Ecos.Posix.Signal
