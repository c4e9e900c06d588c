import Mathlib.Data.List.FinRange

namespace Ecos.Posix.Signal
open BitVec

/-- `sigset_t`: bit `n` is signal `n`. -/
abbrev Sigset := BitVec 32

/-- `1L << signo`. -/
def sigbit (signo : Fin 32) : Sigset := 1#32 <<< signo.val

/-- `sigaddset`, `sigdelset` and `sigismember`, of a valid signal. -/
def sigaddset (set : Sigset) (signo : Fin 32) : Sigset := set ||| sigbit signo

def sigdelset (set : Sigset) (signo : Fin 32) : Sigset := set &&& ~~~sigbit signo

def sigismember (set : Sigset) (signo : Fin 32) : Bool := set.getLsbD signo

/-- `HAL_LSBIT_INDEX`, of a mask that is not zero. -/
def lsbitIndex (set : Sigset) : Option (Fin 32) := (List.finRange 32).find? (sigismember set)

/-- `SIGNAL_VALID`: the valid signal numbers are 1 to 31. -/
def signalValid (sig : Int) : Option (Fin 32) :=
  if inside : 0 < sig ∧ sig < 32 then some ⟨sig.toNat, by omega⟩ else none

/-- The cases of `how` in `pthread_sigmask`. -/
inductive How
  | block | unblock | setmask
  deriving DecidableEq, Repr

def How.apply : How → Sigset → Sigset → Sigset
  | .block, mask, set => mask ||| set
  | .unblock, mask, set => mask &&& ~~~set
  | .setmask, _, set => set

variable {set set' : Sigset} {signo u : Fin 32}

@[simp] theorem sigismember_zero : sigismember 0 u = false := by simp [sigismember]

@[simp] theorem sigismember_or : sigismember (set ||| set') u = (sigismember set u || sigismember set' u) := by
  simp [sigismember]

@[simp] theorem sigismember_and : sigismember (set &&& set') u = (sigismember set u && sigismember set' u) := by
  simp [sigismember]

@[simp] theorem sigismember_not : sigismember (~~~set) u = !sigismember set u := by simp [sigismember]

@[simp] theorem sigismember_sigbit : sigismember (sigbit signo) u = decide (u = signo) := by
  simp only [sigismember, sigbit, getLsbD_shiftLeft, getLsbD_one]
  rw [Bool.eq_iff_iff]
  simp
  omega

@[simp] theorem sigismember_sigaddset : sigismember (sigaddset set signo) u = (sigismember set u || decide (u = signo)) := by
  simp [sigaddset]

@[simp] theorem sigismember_sigdelset : sigismember (sigdelset set signo) u = (sigismember set u && !decide (u = signo)) := by
  simp [sigdelset]

theorem eq_zero_iff : set = 0 ↔ ∀ u, sigismember set u = false := by
  refine ⟨fun zero u => zero ▸ sigismember_zero, fun all => eq_of_getLsbD_eq fun i inside => ?_⟩
  have := all ⟨i, inside⟩
  simpa [sigismember] using this

theorem lsbitIndex_none : lsbitIndex set = none ↔ set = 0 := by
  rw [eq_zero_iff]
  simp [lsbitIndex]

theorem lsbitIndex_some (picked : lsbitIndex set = some signo) : sigismember set signo = true :=
  List.find?_some picked

end Ecos.Posix.Signal
