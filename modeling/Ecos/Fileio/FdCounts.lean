import Ecos.Fileio.Fd

namespace Ecos.Fileio.Fd
open Function State Point Bool File List
variable {c : Config} {T : Type*} [DecidableEq T] [Fintype T]

/-! Which references to a file object a thread has. -/

namespace Caller
variable (i : Fin c.nfile)

def holds : Caller c → Bool
  | .assign _ j (.dup _) => j = i
  | _ => false

def pending : Caller c → Bool
  | .assign _ j .openFile => j = i
  | _ => false

def opening : Caller c → Bool
  | .free _ (.openFile (some j) _) => j = i
  | _ => false

end Caller

namespace Point
variable (i : Fin c.nfile)

/-- A reference from `cyg_fp_get` that is not yet released. -/
def holds : Point c → Bool
  | .dupAlloc j | .fcntlAlloc j _ | .use j _ | .put j _ => j = i
  | .assign fd j who | .store fd j who => (Caller.assign fd j who).holds i
  | .dec _ caller | .foClose _ caller | .back caller _ => caller.holds i
  | _ => false

/-- A reference in the middle: counted no longer by a descriptor and still in `f_ucount`, or the other way round. -/
def middle : Point c → Bool
  | .dec j _ | .store _ j _ => j = i
  | _ => false

/-- The object of a file that `open` has opened and not yet assigned. -/
def pending : Point c → Bool
  | .assign fd j who => (Caller.assign fd j who).pending i
  | .dec _ caller | .foClose _ caller | .back caller _ => caller.pending i
  | _ => false

/-- An object that `open` has taken and not opened, or is about to free. -/
def opening : Point c → Bool
  | .openLookup _ j _ _ | .openFs _ j _ _ | .fileFree j _ => j = i
  | .free fd who => (Caller.free fd who).opening i
  | .dec _ caller | .foClose _ caller | .back caller _ => caller.opening i
  | _ => false

def closing : Point c → Bool
  | .foClose j _ => j = i
  | _ => false

/-- All that a thread at this point has to do with the object. -/
def shares (p : Point c) : Bool × Bool × Bool × Bool × Bool := (p.holds i, p.middle i, p.pending i, p.opening i, p.closing i)

/-- The thread has a reference to the object, and no other business. -/
def Uses (p : Point c) : Prop := ∀ j, p.shares j = (decide (i = j), false, false, false, false)

attribute [local simp] Caller.holds Caller.pending Caller.opening Point.holds Point.middle Point.pending Point.opening
  Point.closing in
theorem Uses.user {p : Point c} {i : Fin c.nfile} (uses : p.Uses i) (j : Fin c.nfile) : p.holds j = decide (i = j) ∧
    p.middle j = false ∧ p.pending j = false ∧ p.opening j = false ∧ p.closing j = false := by
  simpa only [shares, Prod.mk.injEq] using uses j

end Point

namespace File
variable {f : File}

theorem raise_ucount (room : f.ucount.toNat + 1 < 2 ^ 16) : f.raise.ucount.toNat = f.ucount.toNat + 1 := by
  rw [raise, UInt16.toNat_add]
  exact Nat.mod_eq_of_lt room

theorem lower_ucount (some : 0 < f.ucount.toNat) : f.lower.ucount.toNat = f.ucount.toNat - 1 := by
  rw [lower, UInt16.toNat_sub]
  have bound := f.ucount.toNat_lt
  have one : (1 : UInt16).toNat = 1 := rfl
  omega

theorem raise_full (full : ¬ f.ucount.toNat + 1 < 2 ^ 16) : f.raise.ucount.toNat = 0 := by
  have bound := f.ucount.toNat_lt
  rw [raise, UInt16.toNat_add]
  have one : (1 : UInt16).toNat = 1 := rfl
  omega

end File

namespace State
variable (s : State c T) (i : Fin c.nfile)

/-- The entries of `desc` that point to the object. -/
def entries : Nat := tally (fun d => decide (d = Desc.file i)) s.desc

def gets : Nat := tally (Point.holds i) s.thread

def middle : Nat := tally (Point.middle i) s.thread

def pending : Nat := tally (Point.pending i) s.thread

def opening : Nat := tally (Point.opening i) s.thread

def closing : Nat := tally (Point.closing i) s.thread

/-- All references to an open file, the one of its own `open` included. -/
def refs : Nat := s.entries i + s.gets i + s.middle i + s.pending i

/-- What the counts of an object have to do with each other. -/
structure Account : Prop where
  count : (s.file i).ucount.toNat = s.entries i + s.gets i + s.middle i
  owner : s.opening i + s.pending i + s.closing i + min 1 (s.file i).ucount.toNat = (s.file i).alloc.toNat
  log : s.opens i = s.closes i + s.pending i + min 1 (s.file i).ucount.toNat

variable {s i} {t : T} {p q : Point c} {d : Desc c} {fd : Fin c.nfd} {j : Fin c.nfile}

theorem goto_counts (at' : s.thread t = p) (q : Point c) :
    (s.goto t q).gets i + (p.holds i).toNat = s.gets i + (q.holds i).toNat ∧
      (s.goto t q).middle i + (p.middle i).toNat = s.middle i + (q.middle i).toNat ∧
      (s.goto t q).pending i + (p.pending i).toNat = s.pending i + (q.pending i).toNat ∧
      (s.goto t q).opening i + (p.opening i).toNat = s.opening i + (q.opening i).toNat ∧
      (s.goto t q).closing i + (p.closing i).toNat = s.closing i + (q.closing i).toNat := by
  subst at'
  exact ⟨tally_update _ _ _ _, tally_update _ _ _ _, tally_update _ _ _ _, tally_update _ _ _ _, tally_update _ _ _ _⟩

theorem setDesc_entries : (s.setDesc fd d).entries i + (decide (s.desc fd = .file i)).toNat =
    s.entries i + (decide (d = .file i)).toNat := tally_update _ _ _ _

theorem Account.moved {s' : State c T} {f : File} {e x y : Nat} (account : s.Account i) (here : s.thread t = p)
    (same : s'.thread = s.thread) (file : s'.file i = f) (entries : s'.entries i = e) (opens : s'.opens i = x)
    (closes : s'.closes i = y)
    (count : s.entries i + (p.holds i).toNat + (p.middle i).toNat + f.ucount.toNat =
      (s.file i).ucount.toNat + e + (q.holds i).toNat + (q.middle i).toNat)
    (owner : (p.opening i).toNat + (p.pending i).toNat + (p.closing i).toNat + min 1 (s.file i).ucount.toNat + f.alloc.toNat =
      (q.opening i).toNat + (q.pending i).toNat + (q.closing i).toNat + min 1 f.ucount.toNat + (s.file i).alloc.toNat)
    (log : x + s.closes i + (p.pending i).toNat + min 1 (s.file i).ucount.toNat =
      s.opens i + y + (q.pending i).toNat + min 1 f.ucount.toNat) : (s'.goto t q).Account i := by
  subst file entries opens closes
  have threads : ∀ f : Point c → Bool, tally f s'.thread = tally f s.thread := fun f => by rw [same]
  obtain ⟨g, m, n, o, k⟩ := goto_counts (i := i) (same ▸ here : s'.thread t = p) q
  obtain ⟨count₀, owner₀, log₀⟩ := account
  simp only [gets, middle, pending, opening, closing, threads] at g m n o k count₀ owner₀ log₀
  have e : (s'.goto t q).entries i = s'.entries i := rfl
  have f : (s'.goto t q).file = s'.file := rfl
  have x : (s'.goto t q).opens = s'.opens := rfl
  have y : (s'.goto t q).closes = s'.closes := rfl
  refine ⟨?_, ?_, ?_⟩
  · rw [f, e, gets, middle]
    omega
  · rw [f, opening, pending, closing]
    omega
  · rw [f, x, y, pending]
    omega

theorem Account.relock (account : s.Account i) (l : Option T) : Account { s with fdlock := l } i :=
  ⟨account.count, account.owner, account.log⟩

theorem Account.goto (account : s.Account i) (here : s.thread t = p) (same : q.shares i = p.shares i) :
    (s.goto t q).Account i := by
  simp only [shares, Prod.mk.injEq] at same
  obtain ⟨holds, middle, pending, opening, closing⟩ := same
  refine account.moved here rfl rfl rfl rfl rfl ?_ ?_ ?_
  · rw [holds, middle]
    omega
  · rw [pending, opening, closing]
  · rw [pending]

theorem freeDesc_null {low : Nat} (found : s.freeDesc low = some fd) : s.desc fd = .null := by
  have holds := find?_some found
  simp only [decide_and, and_eq_true, decide_eq_true_eq] at holds
  exact holds.2

theorem freeFile_free (found : s.freeFile = some j) : (s.file j).alloc = false := by
  simpa using find?_some found

theorem Account.unused (account : s.Account i) (free : (s.file i).alloc = false) : (s.file i).ucount.toNat = 0 := by
  have owner := account.owner
  rw [free, toNat_false] at owner
  omega

theorem Account.refiled {s' : State c T} {f : File} (account : s.Account i) (here : s.thread t = p)
    (thread : s'.thread = s.thread) (desc : s'.desc = s.desc) (file : s'.file = update s.file j f)
    (opens : s'.opens = s.opens) (closes : s'.closes = s.closes)
    (other : i ≠ j → q.shares i = p.shares i)
    (count : i = j → (p.holds i).toNat + (p.middle i).toNat + f.ucount.toNat =
      (s.file i).ucount.toNat + (q.holds i).toNat + (q.middle i).toNat)
    (owner : i = j → (p.opening i).toNat + (p.pending i).toNat + (p.closing i).toNat + min 1 (s.file i).ucount.toNat +
        f.alloc.toNat =
      (q.opening i).toNat + (q.pending i).toNat + (q.closing i).toNat + min 1 f.ucount.toNat + (s.file i).alloc.toNat)
    (log : i = j → (p.pending i).toNat + min 1 (s.file i).ucount.toNat = (q.pending i).toNat + min 1 f.ucount.toNat) :
    (s'.goto t q).Account i := by
  have entries : s'.entries i = s.entries i := by rw [entries, desc, entries]
  by_cases same : i = j
  · subst same
    refine account.moved here thread (by rw [file, update_self]) entries (congrFun opens i) (congrFun closes i) ?_ ?_ ?_
    · have := count rfl
      omega
    · have := owner rfl
      omega
    · have := log rfl
      omega
  · have shares := other same
    simp only [Point.shares, Prod.mk.injEq] at shares
    obtain ⟨holds, middle, pending, opening, closing⟩ := shares
    refine account.moved here thread (by rw [file, update_of_ne same]) entries (congrFun opens i)
      (congrFun closes i) ?_ ?_ ?_
    · rw [holds, middle]
      omega
    · rw [pending, opening, closing]
    · rw [pending]

theorem Account.redirected {s' : State c T} (account : s.Account i) (here : s.thread t = p)
    (thread : s'.thread = s.thread) (desc : s'.desc = update s.desc fd d) (file : s'.file = s.file)
    (opens : s'.opens = s.opens) (closes : s'.closes = s.closes)
    (count : (decide (d = .file i)).toNat + (q.holds i).toNat + (q.middle i).toNat =
      (decide (s.desc fd = .file i)).toNat + (p.holds i).toNat + (p.middle i).toNat)
    (pending : q.pending i = p.pending i) (opening : q.opening i = p.opening i) (closing : q.closing i = p.closing i) :
    (s'.goto t q).Account i := by
  have entries : s'.entries i = (s.setDesc fd d).entries i := by rw [entries, desc, entries, setDesc]
  have change : (s.setDesc fd d).entries i + (decide (s.desc fd = .file i)).toNat =
      s.entries i + (decide (d = .file i)).toNat := setDesc_entries
  refine account.moved here thread (congrFun file i) entries (congrFun opens i) (congrFun closes i) ?_ ?_ ?_
  · omega
  · rw [pending, opening, closing]
  · rw [pending]

theorem Account.fpGet {found : Fin c.nfile → Point c} {call : Call c} (account : ∀ i, s.Account i)
    (here : s.thread t = .enter call) (room : ∀ j, s.desc fd = .file j → (s.file j).ucount.toNat + 1 < 2 ^ 16)
    (uses : ∀ j, (found j).Uses j) (i : Fin c.nfile) : (s.fpGet t fd found).Account i := by
  unfold State.fpGet
  split
  case h_1 j entry =>
    have raised : (s.file j).raise.ucount.toNat = (s.file j).ucount.toNat + 1 := raise_ucount (room j entry)
    have some : 0 < s.entries j := tally_pos (t := fd) (by simp [entry])
    have count := (account j).count
    obtain ⟨holds, middle, pending, opening, closing⟩ := (uses j).user j
    refine (account i).refiled here rfl rfl rfl rfl rfl ?_ ?_ ?_ ?_
    · intro other
      rw [uses j i, decide_eq_false (Ne.symm other)]
      rfl
    · rintro rfl
      rw [holds, middle, raised, decide_eq_true rfl]
      simp only [Point.holds, Point.middle, toNat_true, toNat_false]
      omega
    · rintro rfl
      rw [raised, pending, opening, closing]
      simp only [Point.pending, Point.opening, Point.closing, raise, toNat_false]
      omega
    · rintro rfl
      rw [raised, pending]
      simp only [Point.pending, toNat_false]
      omega
  case h_2 => exact (account i).goto here rfl

section
variable (account : s.Account i)
include account

theorem Account.reserved {low : Nat} (found : s.freeDesc low = some fd) (here : s.thread t = p)
    (same : q.shares i = p.shares i) : ((s.setDesc fd .allocated).goto t q).Account i := by
  simp only [shares, Prod.mk.injEq] at same
  obtain ⟨holds, middle, pending, opening, closing⟩ := same
  refine account.redirected here rfl rfl rfl rfl rfl ?_ pending opening closing
  rw [freeDesc_null found, holds, middle]
  rfl

theorem Account.openAlloc {read write : Bool} (here : s.thread t = .openAlloc fd read write) :
    (s.openAlloc t fd read write).Account i := by
  unfold State.openAlloc
  split
  case h_1 => exact account.goto here rfl
  case h_2 j found =>
    have free := freeFile_free found
    refine account.refiled here rfl rfl rfl rfl rfl ?_ ?_ ?_ ?_
    · intro other
      simp [Point.shares, Point.holds, Point.middle, Point.pending, Point.opening, Point.closing, Ne.symm other]
    · rintro rfl
      rw [account.unused free]
      rfl
    · rintro rfl
      rw [account.unused free, free]
      simp [Point.pending, Point.opening, Point.closing]
    · rintro rfl
      rw [account.unused free]
      rfl

theorem Account.opened {read write : Bool} (here : s.thread t = .openFs fd j read write) :
    (s.opened t fd j read write).Account i := by
  have entries : ∀ f x, entries { s.setFile j f with opens := x } i = s.entries i := fun _ _ => rfl
  by_cases same : i = j
  · subst same
    refine account.moved here rfl (update_self ..) (entries ..) (update_self ..) rfl ?_ ?_ ?_
    · simp only [Point.holds, Point.middle, Caller.holds]
      omega
    · simp only [Point.opening, Point.pending, Point.closing, Caller.pending, decide_true, toNat_true]
      omega
    · simp only [Point.pending, Caller.pending, decide_true, toNat_true, toNat_false]
      change s.opens i + 1 + s.closes i + 0 + _ = s.opens i + s.closes i + 1 + _
      omega
  · refine account.moved here rfl (update_of_ne same ..) (entries ..) (update_of_ne same ..) rfl ?_ ?_ ?_
    · simp only [Point.holds, Point.middle, Caller.holds]
      omega
    · simp [Point.opening, Point.pending, Point.closing, Caller.pending, Ne.symm same]
    · simp [Point.pending, Caller.pending, Ne.symm same, setFile]

theorem Account.fdClose {caller : Caller c} (here : s.thread t = p)
    (same : p.shares i = (caller.holds i, false, caller.pending i, caller.opening i, false)) :
    (s.fdClose t fd caller).Account i := by
  simp only [shares, Prod.mk.injEq] at same
  obtain ⟨holds, middle, pending, opening, closing⟩ := same
  unfold State.fdClose
  split
  case h_1 j entry =>
    refine account.redirected here rfl rfl rfl rfl rfl ?_ pending.symm opening.symm closing.symm
    rw [entry, holds, middle]
    by_cases same : j = i
    · subst same
      simp [Point.holds, Point.middle, Nat.add_comm]
    · simp [Point.holds, Point.middle, same]
  case h_2 none =>
    have other : s.desc fd ≠ .file i := fun entry => none i entry
    refine account.redirected here rfl rfl rfl rfl rfl ?_ pending.symm opening.symm closing.symm
    rw [holds, middle, decide_eq_false other]
    rfl

theorem Account.put {who : Putter c} (here : s.thread t = .put j who) :
    ({ s with fdlock := some t }.goto t (.dec j (.put who))).Account i := by
  refine account.moved here rfl rfl rfl rfl rfl ?_ ?_ ?_
  · simp only [Point.holds, Point.middle, Caller.holds, toNat_false]
    change s.entries i + _ + 0 + _ = _ + s.entries i + 0 + _
    omega
  · simp only [Point.opening, Point.pending, Point.closing, Caller.opening, Caller.pending]
  · simp only [Point.pending, Caller.pending]

theorem Account.fileFree {r : Result} (here : s.thread t = .fileFree j r) :
    ((s.setFile j (s.file j).clear).goto t (.user r)).Account i := by
  refine account.refiled here rfl rfl rfl rfl rfl ?_ ?_ ?_ ?_
  · intro other
    simp [Point.shares, Point.holds, Point.middle, Point.pending, Point.opening, Point.closing, Ne.symm other]
  · rintro rfl
    simp [Point.holds, Point.middle, clear]
  · rintro rfl
    have owner := account.owner
    have mine : 0 < s.opening i := tally_pos (t := t) (by simp [here, Point.opening])
    have le := toNat_le (s.file i).alloc
    simp only [Point.opening, Point.pending, Point.closing, clear, decide_true, toNat_true, toNat_false]
    omega
  · rintro rfl
    simp [Point.pending, clear]

end

theorem Account.dec {caller : Caller c} (account : ∀ i, s.Account i) (here : s.thread t = .dec j caller)
    (i : Fin c.nfile) : (s.dec t j caller).Account i := by
  have some : 0 < s.middle j := tally_pos (t := t) (by simp [here, Point.middle])
  have count := (account j).count
  have lowered := lower_ucount (f := s.file j) (by omega)
  have zero : (s.file j).lower.ucount = 0 ↔ (s.file j).lower.ucount.toNat = 0 := UInt16.toNat_inj.symm
  unfold State.dec
  by_cases last : (s.file j).lower.ucount = 0
  · rw [if_pos last]
    rw [zero] at last
    have entries : ∀ f l y, entries { s.setFile j f with fdlock := l, closes := y } i = s.entries i :=
      fun _ _ _ => rfl
    have opens : ∀ f l y, opens { s.setFile j f with fdlock := l, closes := y } i = s.opens i := fun _ _ _ => rfl
    by_cases same : i = j
    · subst same
      refine (account i).moved here rfl (update_self ..) (entries ..) (opens ..) (update_self ..) ?_ ?_ ?_
      · simp only [Point.holds, Point.middle, decide_true, toNat_true, toNat_false]
        omega
      · simp only [Point.opening, Point.pending, Point.closing, decide_true, toNat_true, toNat_false]
        change _ + _ + 0 + _ + (s.file i).alloc.toNat = _ + _ + 1 + _ + (s.file i).alloc.toNat
        omega
      · simp only [Point.pending]
        omega
    · refine (account i).moved here rfl (update_of_ne same ..) (entries ..) (opens ..) (update_of_ne same ..) ?_ ?_ ?_
      · simp only [Point.holds, Point.middle, decide_eq_false (Ne.symm same)]
        omega
      · simp only [Point.opening, Point.pending, Point.closing, decide_eq_false (Ne.symm same)]
      · simp only [Point.pending]
  · rw [if_neg last]
    rw [zero] at last
    refine (account i).refiled here rfl rfl rfl rfl rfl ?_ ?_ ?_ ?_
    · intro other
      simp [Point.shares, Point.holds, Point.middle, Point.pending, Point.opening, Point.closing, Ne.symm other]
    · rintro rfl
      rw [lowered]
      simp only [Point.holds, Point.middle, decide_true, toNat_true, toNat_false]
      omega
    · rintro rfl
      simp only [Point.opening, Point.pending, Point.closing, lower]
      change _ + _ + _ + _ + (s.file i).alloc.toNat = _ + _ + _ + min 1 (s.file i).lower.ucount.toNat + _
      omega
    · rintro rfl
      simp only [Point.pending]
      omega

section
variable (account : s.Account i)
include account

theorem Account.foClose {caller : Caller c} {error : Option Errno} (here : s.thread t = .foClose j caller) : (s.foClose t j caller error).Account i := by
  refine account.refiled here rfl rfl rfl rfl rfl ?_ ?_ ?_ ?_
  · intro other
    simp [Point.shares, Point.holds, Point.middle, Point.pending, Point.opening, Point.closing, Ne.symm other]
  · rintro rfl
    simp only [Point.holds, Point.middle, clear]
    omega
  · rintro rfl
    have owner := account.owner
    have mine : 0 < s.closing i := tally_pos (t := t) (by simp [here, Point.closing])
    have le := toNat_le (s.file i).alloc
    simp only [Point.opening, Point.pending, Point.closing, clear, decide_true, toNat_true, toNat_false]
    omega
  · rintro rfl
    simp [Point.pending, clear]

theorem Account.assigned (here : (s.thread t).pending i = true) : (s.file i).ucount.toNat = 0 := by
  have owner := account.owner
  have mine : 0 < s.pending i := tally_pos here
  have le := toNat_le (s.file i).alloc
  omega

theorem Account.held (here : (s.thread t).holds i = true) : 0 < (s.file i).ucount.toNat := by
  have count := account.count
  have mine : 0 < s.gets i := tally_pos here
  omega

theorem Account.raised {who : Assigner} {error : Option Errno} (here : s.thread t = .back (.assign fd j who) error) (room : (s.file j).ucount.toNat + 1 < 2 ^ 16) :
    ((s.setFile j (s.file j).raise).goto t (.store fd j who)).Account i := by
  have raised := raise_ucount room
  refine account.refiled here rfl rfl rfl rfl rfl ?_ ?_ ?_ ?_
  · intro other
    cases who <;> simp [Point.shares, Point.holds, Point.middle, Point.pending, Point.opening, Point.closing, Caller.pending,
      Caller.opening, Ne.symm other]
  · rintro rfl
    rw [raised]
    simp only [Point.holds, Point.middle, decide_true, toNat_true, toNat_false]
    omega
  · rintro rfl
    rw [raised]
    cases who with
    | openFile =>
      have fresh := account.assigned (by rw [here]; exact decide_eq_true rfl)
      simp [Point.opening, Point.pending, Point.closing, Caller.opening, Caller.pending, raise, fresh]
    | dup r =>
      have held := account.held (by rw [here]; exact decide_eq_true rfl)
      simp only [Point.opening, Point.pending, Point.closing, Caller.opening, Caller.pending, raise, toNat_false]
      omega
  · rintro rfl
    rw [raised]
    cases who with
    | openFile =>
      have fresh := account.assigned (by rw [here]; exact decide_eq_true rfl)
      simp [Point.pending, Caller.pending, fresh]
    | dup r =>
      have held := account.held (by rw [here]; exact decide_eq_true rfl)
      simp only [Point.pending, Caller.pending, toNat_false]
      omega

theorem Account.store {who : Assigner} (here : s.thread t = .store fd j who)
    (clear : ∀ k, s.desc fd ≠ .file k) : (s.store t fd j who).Account i := by
  refine account.redirected here rfl rfl rfl rfl rfl ?_ ?_ ?_ ?_
  · rw [decide_eq_false (clear i)]
    cases who with
    | openFile => simp [Point.holds, Point.middle, Caller.holds]
    | dup r => simp [Point.holds, Point.middle, Caller.holds, Nat.add_comm]
  all_goals cases who <;> rfl

theorem Account.released {who : Freer c} {error : Option Errno} (here : s.thread t = .back (.free fd who) error) (clear : ∀ k, s.desc fd ≠ .file k) :
    (s.back t error (.free fd who)).Account i := by
  refine account.redirected here rfl rfl rfl rfl rfl ?_ ?_ ?_ ?_
  · rw [decide_eq_false (clear i)]
    rcases who with _ | ⟨_ | _, _⟩ <;> rfl
  all_goals rcases who with _ | ⟨_ | _, _⟩ <;> rfl

theorem Account.putBack {who : Putter c} {error : Option Errno} (here : s.thread t = .back (.put who) error) : (s.back t error (.put who)).Account i := by
  cases who with
  | ret r => exact (account.relock none).goto here rfl
  | close fd => exact (account.relock none).goto here rfl

end

end State

/-- The descriptor that the call hands to `cyg_fp_get`. -/
def Call.gets : Call c → Option (Fin c.nfd)
  | .openFile _ _ => none
  | .close fd | .dup fd | .fcntl fd _ | .use fd _ => some fd
  | .dup2 fd fd2 => if fd2 ≠ fd.val ∧ 0 ≤ fd2 ∧ fd2 < c.nfile then some fd else none

namespace State
variable {s : State c T} {t : T} {reply : Option Errno} {e : Act c T}

/-- Nothing goes wrong with the next step of a thread at this point: the count to be raised has room, `dup` finds a
descriptor, and no other thread has put a file where this one stores. -/
def SoundAt (s : State c T) : Point c → Prop
  | .enter call => ∀ fd i, call.gets = some fd → s.desc fd = .file i → (s.file i).ucount.toNat + 1 < 2 ^ 16
  | .dupAlloc _ => s.freeDesc 0 ≠ none
  | .back (.assign _ i _) _ => (s.file i).ucount.toNat + 1 < 2 ^ 16
  | .back (.free fd _) _ | .store fd _ _ => ∀ i, s.desc fd ≠ .file i
  | _ => True

def Sound (s : State c T) : Act c T → Prop
  | .call _ _ => True
  | .go t _ => s.SoundAt (s.thread t)

instance decidableSoundAt (s : State c T) : ∀ p, Decidable (s.SoundAt p)
  | .enter call =>
    inferInstanceAs (Decidable (∀ fd i, call.gets = some fd → s.desc fd = .file i → (s.file i).ucount.toNat + 1 < 2 ^ 16))
  | .dupAlloc _ => inferInstanceAs (Decidable (s.freeDesc 0 ≠ none))
  | .back (.assign _ i _) _ => inferInstanceAs (Decidable ((s.file i).ucount.toNat + 1 < 2 ^ 16))
  | .back (.free fd _) _ | .store fd _ _ => inferInstanceAs (Decidable (∀ i, s.desc fd ≠ .file i))
  | .back (.put _) _ | .user _ | .openAlloc .. | .openLookup .. | .openFs .. | .fcntlAlloc .. | .use .. | .assign .. |
    .free .. | .put .. | .fileFree .. | .dec .. | .foClose .. => inferInstanceAs (Decidable True)

instance decidableSound (s : State c T) : ∀ e, Decidable (s.Sound e)
  | .call _ _ => inferInstanceAs (Decidable True)
  | .go t _ => inferInstanceAs (Decidable (s.SoundAt (s.thread t)))

theorem Account.enter {call : Call c} (account : ∀ i, s.Account i) (here : s.thread t = .enter call)
    (room : ∀ fd i, call.gets = some fd → s.desc fd = .file i → (s.file i).ucount.toNat + 1 < 2 ^ 16) (i : Fin c.nfile) :
    (s.enter t call).Account i := by
  cases call with
  | openFile read write =>
    dsimp only [State.enter]
    split
    · exact (account i).goto here rfl
    · split
      case h_1 => exact (account i).goto here rfl
      case h_2 fd found => exact (account i).reserved found here rfl
  | close fd => exact .fpGet account here (room fd · rfl) (fun _ _ => rfl) i
  | dup fd => exact .fpGet account here (room fd · rfl) (fun _ _ => rfl) i
  | dup2 fd fd2 =>
    dsimp only [State.enter]
    split
    · exact (account i).goto here rfl
    · rename_i apart
      split
      · rename_i inside
        exact .fpGet account here (room fd · (if_pos ⟨apart, inside⟩)) (fun _ _ => rfl) i
      · exact (account i).goto here rfl
  | fcntl fd dupfd =>
    cases dupfd with
    | none => exact .fpGet account here (room fd · rfl) (fun _ _ => rfl) i
    | some fda =>
      dsimp only [State.enter]
      split <;> exact .fpGet account here (room fd · rfl) (fun _ _ => rfl) i
  | use fd direction => exact .fpGet account here (room fd · rfl) (fun _ _ => rfl) i

theorem Account.advance (account : ∀ i, s.Account i) (sound : s.Sound (.go t reply)) (i : Fin c.nfile) :
    (s.advance t reply).Account i := by
  have mine := account i
  unfold State.advance
  cases here : s.thread t with
  | user r => exact mine.goto here rfl
  | enter call =>
    rw [Sound, here] at sound
    exact .enter account here sound i
  | openAlloc fd read write => exact mine.openAlloc here
  | openLookup fd j read write =>
    dsimp only
    split <;> exact mine.goto here rfl
  | openFs fd j read write =>
    cases reply with
    | none => exact mine.opened here
    | some error => exact mine.goto here rfl
  | dupAlloc j =>
    rw [Sound, here] at sound
    obtain ⟨fd2, found⟩ := Option.ne_none_iff_exists'.mp sound
    simp only [dupAlloc, found]
    exact mine.reserved found here rfl
  | fcntlAlloc j low =>
    dsimp only [fcntlAlloc]
    split
    case h_1 => exact mine.goto here rfl
    case h_2 fd2 found => exact mine.reserved found here rfl
  | use j direction => exact mine.goto here rfl
  | assign fd j who => exact mine.fdClose here rfl
  | free fd who => exact mine.fdClose here rfl
  | put j who => exact mine.put here
  | fileFree j r => exact mine.fileFree here
  | dec j caller => exact .dec account here i
  | foClose j caller => exact mine.foClose here
  | back caller error =>
    rw [Sound, here] at sound
    cases caller with
    | assign fd j who => exact mine.raised here sound
    | free fd who => exact mine.released here sound
    | put who => exact mine.putBack here
  | store fd j who =>
    rw [Sound, here] at sound
    exact mine.store here sound

theorem Account.act (account : ∀ i, s.Account i) (enabled : s.Enabled e) (sound : s.Sound e) (i : Fin c.nfile) :
    (s.act e).Account i := by
  cases e with
  | call t call =>
    cases here : s.thread t with
    | user r => exact (account i).goto here rfl
    | _ => simp [Enabled, here, outside] at enabled
  | go t reply => exact .advance account sound i

end State

end Ecos.Fileio.Fd
