import Mathlib.Data.List.Nodup
import Mathlib.Data.List.Range
import Ecos.Lib.Fuel
import Ecos.Lib.Chain
import Ecos.Lib.Ripple

namespace Ecos.Flash.Init

/-- `cyg_flashdevtab`, by the index of the device: the addresses that the drivers give their devices. -/
structure Table where
  size : Nat
  start : Nat → Nat
  last : Nat → Nat
  proper : ∀ d, start d ≤ last d

/-- The fields `next` and `init` of the devices, and the statics `flash_head` and `init`. -/
structure State where
  head : Option Nat
  next : Nat → Option Nat
  ready : Nat → Bool
  init : Bool

inductive Stat
  | ok
  | invalid
  | notInit
  deriving DecidableEq

def State.boot : State := ⟨none, fun _ => none, fun _ => false, false⟩

namespace State

/-- What `previous_next` points to: `flash_head`, or the field `next` of a device. -/
def read (s : State) : Option Nat → Option Nat
  | none => s.head
  | some dev => s.next dev

def setNext (s : State) (dev : Nat) (target : Option Nat) : State :=
    { s with next := Function.update s.next dev target }

def write (s : State) (target : Option Nat) : Option Nat → State
  | none => { s with head := target }
  | some dev => s.setNext dev target

end State

/-- `flash_sort_and_check`, the first loop. -/
def place (t : Table) (s : State) : State :=
  (List.range t.size).foldl (fun s dev => if s.ready dev then { s.setNext dev s.head with head := some dev } else s) s

/-- The inner loop of the ripple sort: the devices afterwards, and `moved`. -/
def pass (t : Table) : Nat → State → Nat → Option Nat → Option (State × Bool)
  | 0, _, _, _ => none
  | fuel + 1, s, dev, previousNext =>
    match s.next dev with
    | none => some (s, false)
    | some later =>
      if t.start dev > t.start later then do
        let s := s.write (some later) previousNext
        let other ← s.read previousNext
        let s := s.setNext dev (s.next other)
        let other ← s.read previousNext
        some (s.setNext other (some dev), true)
      else pass t fuel s later (some dev)

/-- The ripple sort. -/
def sort (t : Table) : Nat → State → Nat → Option State
  | 0, _, _ => none
  | fuel + 1, s, dev => do
    let (s, moved) ← pass t fuel s dev none
    if moved then
      let dev ← s.head
      sort t fuel s dev
    else some s

/-- The last loop: no device ends behind the start of the next one. -/
def check (t : Table) (s : State) : Nat → Nat → Option Bool
  | 0, _ => none
  | fuel + 1, dev =>
    match s.next dev with
    | none => some true
    | some later => if t.last dev ≥ t.start later then some false else check t s fuel later

/-- `none` if the loops do not end with this fuel. -/
def flashSortAndCheck (t : Table) (fuel : Nat) (s : State) : Option (Bool × State) :=
  let s := place t s
  match s.head with
  | none => some (false, s)
  | some dev => do
    let s ← sort t fuel s dev
    let dev ← s.head
    let fine ← check t s fuel dev
    some (fine, s)

/-- `cyg_flash_init`, with the answers of the drivers. -/
def cygFlashInit (t : Table) (fuel : Nat) (s : State) (answers : Nat → Bool) : Option (Stat × State) :=
  if s.init then some (.ok, s)
  else do
    let s := { s with ready := fun d => s.ready d || decide (d < t.size) && answers d }
    let (fine, s) ← flashSortAndCheck t fuel s
    if fine then some (.ok, { s with init := true }) else some (.invalid, s)

/-- The loop of `find_dev`. -/
def search (t : Table) (s : State) (addr : Nat) : Nat → Option Nat → Option (Stat × Option Nat)
  | 0, _ => none
  | _ + 1, none => some (.invalid, none)
  | fuel + 1, some dev =>
    if t.start dev ≤ addr ∧ addr ≤ t.last dev then some (.ok, some dev) else search t s addr fuel (s.next dev)

def findDev (t : Table) (fuel : Nat) (s : State) (addr : Nat) : Option (Stat × Option Nat) :=
  if s.init then search t s addr fuel s.head else some (.notInit, none)

/-- Calls of `cyg_flash_init` one after the other: their results, and the state after each. -/
def run (t : Table) (fuel : Nat) : State → List (Nat → Bool) → Option (List (Stat × State))
  | _, [] => some []
  | s, answers :: calls => do
    let r ← cygFlashInit t fuel s answers
    let rest ← run t fuel r.2 calls
    some (r :: rest)

/-- `flash_head` leads to exactly the initialised devices, each once and in ascending order, and `find_dev` finds the
  only
device that has an address. -/
structure Listed (t : Table) (s : State) : Prop where
  devices : ∃ l, Chain s.next s.head l ∧ l.Nodup ∧ (∀ d, d ∈ l ↔ d < t.size ∧ s.ready d = true) ∧
    l.Pairwise fun a b => t.last a < t.start b
  finds : ∀ addr, ∃ fuel r, findDev t fuel s addr = some r ∧
    (∀ d < t.size, s.ready d = true → (t.start d ≤ addr ∧ addr ≤ t.last d ↔ r = (.ok, some d))) ∧
    ((∀ d < t.size, s.ready d = true → ¬(t.start d ≤ addr ∧ addr ≤ t.last d)) → r = (.invalid, none))

/-- All calls end, a call with success leaves the list as it should be, and without a failed call the others give the
same results. -/
def Initialises (t : Table) (calls : List (Nat → Bool)) : Prop :=
  ∃ fuel results, run t fuel .boot calls = some results ∧ (∀ r ∈ results, r.1 = .ok → Listed t r.2) ∧
    ∀ before answers after, calls = before ++ answers :: after →
      (∃ r, results[before.length]? = some r ∧ r.1 ≠ .ok) →
        ∃ fuel, run t fuel .boot (before ++ after) = some (results.eraseIdx before.length)

/-- The devices that answer do not overlap. -/
def Apart (t : Table) (answers : Nat → Bool) : Prop :=
  ∀ a < t.size, ∀ b < t.size, answers a = true → answers b = true → a ≠ b → t.last a < t.start b ∨ t.last b < t.start a

/-- No call is made after one that finds devices that overlap. -/
def NotAgain (t : Table) (calls : List (Nat → Bool)) : Prop :=
  ∀ before answers after, calls = before ++ answers :: after → (∀ c ∈ before, ∀ d < t.size, c d = false) →
    Apart t answers ∨ after = []

open Function Option Nat State List
variable {t : Table} {s s' : State} {l front : List Nat} {dev addr fuel fuel' : Nat} {prev :
  Option Nat} {moved fine : Bool} {answers : Nat → Bool} {calls : List (Nat → Bool)}

@[simp] theorem State.setNext_next (target : Option Nat) :
    (s.setNext dev target).next = update s.next dev target := rfl

@[simp] theorem State.setNext_head (target : Option Nat) : (s.setNext dev target).head = s.head := rfl

/-- Only links differ. -/
def State.Relinked (s s' : State) : Prop := s'.ready = s.ready ∧ s'.init = s.init

theorem State.relinked_write {target : Option Nat} : s.Relinked
    (s.write target prev) := by cases prev <;> exact ⟨rfl, rfl⟩

section
variable (le : fuel ≤ fuel')
include le

theorem pass_mono {r : State × Bool} (ends : pass t fuel s dev prev = some r) : pass t fuel' s dev prev = some r := by
  refine fuel_mono (F := fun n x => pass t n s x.1 x.2) (fun _ => rfl) (fun n m _ ih x => ?_) le (dev, prev) r ends
  rw [pass, pass]
  cases s.next x.1 with
  | none => exact .refl
  | some later => exact .ite (fun wrong => .refl) fun right => ih (_, _)

theorem sort_mono (ends : sort t fuel s dev = some s') : sort t fuel' s dev = some s' := by
  refine fuel_mono (F := fun n x => sort t n x.1 x.2) (fun _ => rfl) (fun n m le ih x => ?_) le (s, dev) s' ends
  exact .bind (fun _ => pass_mono le) fun passed _ =>
    .ite (fun moved => .bind .refl fun head _ => ih (_, _)) fun _ => .refl

theorem check_mono (ends : check t s fuel dev = some fine) : check t s fuel' dev = some fine := by
  refine fuel_mono (F := fun n dev => check t s n dev) (fun _ => rfl) (fun n m _ ih dev => ?_) le dev fine ends
  rw [check, check]
  cases s.next dev with
  | none => exact .refl
  | some later => exact .ite (fun overlap => .refl) fun clear => ih _

theorem cygFlashInit_mono {r : Stat × State} (ends : cygFlashInit t fuel s answers = some r) :
    cygFlashInit t fuel' s answers = some r := by
  have sorted (s : State) : Below (flashSortAndCheck t fuel s) (flashSortAndCheck t fuel' s) := by
    rw [flashSortAndCheck, flashSortAndCheck]
    cases (place t s).head with
    | none => exact .refl
    | some dev =>
      exact .bind (fun _ => sort_mono le) fun s _ => .bind .refl fun dev _ =>
        .bind (fun _ => check_mono le) fun fine _ => .refl
  have both : Below (cygFlashInit t fuel s answers) (cygFlashInit t fuel' s answers) :=
    .ite (fun before => .refl) fun _ => .bind (sorted _) fun _ _ => .refl
  exact both r ends

theorem run_mono {results : List (Stat × State)} (ends : run t fuel s calls = some results) :
    run t fuel' s calls = some results := by
  have goesOn : Below (run t fuel s calls) (run t fuel' s calls) := by
    clear ends
    induction calls generalizing s with
    | nil => exact .refl
    | cons answers calls ih => exact .bind (fun _ => cygFlashInit_mono le) fun r _ => .bind ih fun _ _ => .refl
  exact goesOn results ends

end

/-- The inner loop exchanges the first two devices in the wrong order. -/
theorem pass_spec (chain : Chain s.next s.head (front ++ dev :: l)) (nodup : (front ++ dev :: l).Nodup) :
    ∃ fuel s', pass t fuel s dev front.getLast? = some (s', (ripple t.start (dev :: l)).isSome) ∧ s.Relinked s' ∧
      Chain s'.next s'.head (front ++ (ripple t.start (dev :: l)).getD (dev :: l)) := by
  induction l generalizing front dev with
  | nil =>
    have ends : s.next dev = none := chain.behind
    exact ⟨1, s, by simp [pass, ends, ripple], ⟨rfl, rfl⟩, by simpa [ripple] using chain⟩
  | cons later l ih =>
    have link : s.next dev = some later := chain.behind.1
    by_cases wrong : t.start later < t.start dev
    · have apart : dev ≠ later := by rintro rfl; omega
      have before : ∀ z, front.getLast? = some z → z ≠ dev ∧ z ≠ later := fun z ends => by
        have mem := mem_of_getLast? ends
        have disjoint := nodup_append.mp nodup
        exact ⟨disjoint.2.2 z mem dev (by simp), disjoint.2.2 z mem later (by simp)⟩
      have exchanged : ripple t.start (dev :: later :: l) = some (later :: dev :: l) := by rw [ripple, if_pos wrong]
      rw [exchanged]
      set s₁ := s.write (some later) front.getLast? with s₁_def
      have same : s₁.next later = s.next later := by
        rw [s₁_def]
        cases ends : front.getLast? with
        | none => rfl
        | some z => exact update_of_ne (before z ends).2.symm ..
      have other : s₁.read front.getLast? = some later := by
        rw [s₁_def]
        cases ends : front.getLast? with
        | none => rfl
        | some z => exact update_self ..
      have other' : (s₁.setNext dev (s₁.next later)).read front.getLast? = some later := by
        cases ends : front.getLast? with
        | none =>
          rw [ends] at other
          exact other
        | some z =>
          rw [ends] at other
          exact (update_of_ne (before z ends).1 ..).trans other
      refine ⟨1, (s₁.setNext dev (s₁.next later)).setNext later (some dev), ?_, ?_, ?_⟩
      · simp only [pass, link, gt_iff_lt, wrong, if_true, ← s₁_def, bind_eq_bind, other, other',
        bind_some,
          isSome_some]
      · exact relinked_write
      · refine chain.exchange nodup ?_ ?_ ?_ ?_ ?_ ?_
        · rw [setNext_head, setNext_head, s₁_def]
          by_cases none' : front = []
          · subst none'
            rfl
          · obtain ⟨z, ends⟩ := getLast?_isSome.mpr none' |> isSome_iff_exists.mp
            rw [ends, if_neg none']
            rfl
        · simp [apart, same]
        · simp
        · intro z ends
          obtain ⟨notDev, notLater⟩ := before z ends
          simp [notDev, notLater, s₁_def, ends, write]
        · intro z mem notLast
          have disjoint := nodup_append.mp nodup
          have notDev : z ≠ dev := disjoint.2.2 z mem dev (by simp)
          have notLater : z ≠ later := disjoint.2.2 z mem later (by simp)
          rw [setNext_next, update_of_ne notLater, setNext_next, update_of_ne notDev,
            s₁_def]
          cases ends : front.getLast? with
          | none => rfl
          | some y =>
            refine update_of_ne ?_ ..
            rintro rfl
            exact notLast ends
        · intro z mem
          have disjoint := nodup_append.mp nodup
          have own := nodup_cons.mp disjoint.2.1
          have notDev : z ≠ dev := by rintro rfl; exact own.1 (mem_cons_of_mem _ mem)
          have notLater : z ≠ later := by rintro rfl; exact (nodup_cons.mp own.2).1 mem
          rw [setNext_next, update_of_ne notLater, setNext_next, update_of_ne notDev,
            s₁_def]
          cases ends : front.getLast? with
          | none => rfl
          | some y =>
            refine update_of_ne ?_ ..
            rintro rfl
            exact disjoint.2.2 z (mem_of_getLast? ends) z (by simp [mem]) rfl
    · have further : (front ++ [dev]) ++ later :: l = front ++ dev :: later :: l := by simp
      obtain ⟨fuel, s', passes, relinked, chained⟩ := @ih (front ++ [dev]) later (by rwa [further]) (by rwa [further])
      have last : (front ++ [dev]).getLast? = some dev := by simp
      rw [last] at passes
      refine ⟨fuel + 1, s', ?_, relinked, ?_⟩
      · simp only [pass, link, gt_iff_lt, wrong, if_false, passes, ripple, isSome_map]
      · simp only [ripple, wrong, if_false]
        cases rest : ripple t.start (later :: l) <;> simpa [rest] using chained

theorem sort_spec (chain : Chain s.next s.head (dev :: l)) (nodup : (dev :: l).Nodup) :
    ∃ fuel s' l', sort t fuel s dev = some s' ∧ s.Relinked s' ∧ Chain s'.next s'.head l' ∧ l'.Perm (dev :: l) ∧
      l'.Pairwise fun a b => t.start a ≤ t.start b := by
  induction inverted : inversions t.start (dev :: l) using Nat.strong_induction_on generalizing s dev l with
  | _ n ih =>
    obtain ⟨fuel, mid, passes, relinked, chained⟩ := @pass_spec t s l [] dev chain nodup
    cases exchanged : ripple t.start (dev :: l) with
    | none =>
      rw [exchanged] at passes chained
      refine ⟨fuel + 1, mid, dev :: l, ?_, relinked, chained, .refl _, ripple_sorted exchanged⟩
      simp only [sort, show pass t fuel s dev none = _ from passes, bind_eq_bind, bind_some]
      rfl
    | some l₁ =>
      rw [exchanged] at passes chained
      have perm := ripple_perm exchanged
      have less := ripple_less exchanged
      cases l₁ with
      | nil => exact absurd perm.length_eq (by simp)
      | cons first rest =>
        have head : mid.head = some first := chained.1
        obtain ⟨fuel', s', l', sorts, relinked', chained', perm', sorted⟩ :=
          ih _ (by omega) chained (perm.nodup_iff.mpr nodup) rfl
        refine ⟨max fuel fuel' + 1, s', l', ?_, ⟨relinked'.1.trans relinked.1, relinked'.2.trans relinked.2⟩, chained',
          perm'.trans perm, sorted⟩
        have first' := pass_mono (le_max_left fuel fuel') (show pass t fuel s dev none = _ from passes)
        have second := sort_mono (le_max_right fuel fuel') sorts
        simp only [sort, first', bind_eq_bind, bind_some, isSome_some, if_true, head, second]

theorem check_spec (chain : Chain s.next s.head (dev :: l)) (sorted :
    (dev :: l).Pairwise fun a b => t.start a ≤ t.start b) :
    ∃ fuel fine, check t s fuel dev = some fine ∧ (fine = true ↔
      (dev :: l).Pairwise fun a b => t.last a < t.start b) := by
  have link := chain.2
  clear chain
  induction l generalizing dev with
  | nil => exact ⟨1, true, by simp [check, show s.next dev = none from link], by simp⟩
  | cons later l ih =>
    by_cases overlap : t.last dev ≥ t.start later
    · refine ⟨1, false, by simp [check, link.1, overlap], ?_⟩
      simp only [Bool.false_eq_true, false_iff]
      intro clear'
      have := (pairwise_cons.mp clear').1 later (mem_cons_self ..)
      omega
    · obtain ⟨fuel, fine, checks, exactly⟩ := ih (pairwise_cons.mp sorted).2 link.2
      refine ⟨fuel + 1, fine, by simp only [check, link.1, overlap, if_false, checks], ?_⟩
      rw [exactly, pairwise_cons (a := dev)]
      refine ⟨fun clear' => ⟨fun b mem => ?_, clear'⟩, And.right⟩
      rcases mem_cons.mp mem with rfl | further
      · omega
      · have := (pairwise_cons.mp (pairwise_cons.mp sorted).2).1 b further
        omega

theorem place_spec (empty : s.head = none) :
    Chain (place t s).next (place t s).head ((List.range t.size).filter s.ready).reverse ∧ s.Relinked (place t s) := by
  have placed : ∀ n, let s' := (List.range n).foldl (fun s dev => if s.ready dev then
    { s.setNext dev s.head with head := some dev } else s) s
      Chain s'.next s'.head ((List.range n).filter s.ready).reverse ∧ s.Relinked s' := by
    intro n
    induction n with
    | zero => exact ⟨empty, rfl, rfl⟩
    | succ n ih =>
      simp only [range_succ, foldl_append, foldl_cons, foldl_nil, filter_append,
        reverse_append]
      set before := (List.range n).foldl (fun s dev => if s.ready dev then
        { s.setNext dev s.head with head := some dev } else s) s
      obtain ⟨chain, ready, same⟩ := ih
      rw [ready]
      by_cases answered : s.ready n = true
      · rw [if_pos answered]
        refine ⟨?_, ready, same⟩
        simp only [filter_cons, answered, if_true, filter_nil, reverse_singleton, singleton_append]
        refine ⟨rfl, ?_⟩
        rw [setNext_next, update_self]
        refine chain.congr fun d mem => update_of_ne ?_ ..
        have := (mem_filter.mp (mem_reverse.mp mem)).1
        have := mem_range.mp this
        omega
      · rw [if_neg answered]
        simp only [filter_cons, answered, Bool.false_eq_true, if_false, filter_nil, reverse_nil,
          nil_append]
        exact ⟨chain, ready, same⟩
  exact placed t.size

/-- The answer of `find_dev` for the device that has been found. -/
def answer : Option Nat → Stat × Option Nat
  | none => (.invalid, none)
  | some d => (.ok, some d)

theorem search_spec (chain : Chain s.next prev l) : ∃ fuel, search t s addr fuel prev =
    some (answer (l.find? fun d => t.start d ≤ addr ∧ addr ≤ t.last d)) := by
  induction l generalizing prev with
  | nil =>
    obtain rfl : prev = none := chain
    exact ⟨1, rfl⟩
  | cons d l ih =>
    obtain ⟨rfl, rest⟩ := chain
    obtain ⟨fuel, searched⟩ := ih rest
    refine ⟨fuel + 1, ?_⟩
    by_cases inside : t.start d ≤ addr ∧ addr ≤ t.last d
    · simp [search, inside, answer]
    · rw [search, if_neg inside, searched, find?_cons_of_neg (by simpa using inside)]

theorem listed (chain : Chain s.next s.head l) (nodup : l.Nodup) (exactly : ∀ d, d ∈ l ↔ d < t.size ∧ s.ready d = true)
    (apart : l.Pairwise fun a b => t.last a < t.start b) (init : s.init = true) : Listed t s := by
  refine ⟨⟨l, chain, nodup, exactly, apart⟩, fun addr => ?_⟩
  obtain ⟨fuel, searched⟩ := @search_spec t s l addr _ chain
  refine ⟨fuel, _, by rw [findDev, if_pos init, searched], fun d inTable ready =>
    ⟨fun inside => ?_, fun found => ?_⟩, fun out => ?_⟩
  · have mem := (exactly d).mpr ⟨inTable, ready⟩
    obtain ⟨e, found⟩ := isSome_iff_exists.mp
      (find?_isSome.mpr ⟨d, mem, by simpa using inside⟩ :
        (l.find? fun d => t.start d ≤ addr ∧ addr ≤ t.last d).isSome)
    rw [found]
    have there := mem_of_find?_eq_some found
    have holds : t.start e ≤ addr ∧ addr ≤ t.last e := by simpa using find?_some found
    by_contra other
    have ne : e ≠ d := by rintro rfl; exact other rfl
    have either : (t.last e < t.start d) ∨ (t.last d < t.start e) := by
      have symmetric : Std.Symm fun a b => t.last a < t.start b ∨ t.last b < t.start a := ⟨fun _ _ => Or.symm⟩
      have either' : l.Pairwise fun a b => t.last a < t.start b ∨ t.last b < t.start a := apart.imp fun less =>
        .inl less
      exact Pairwise.forall either' there mem ne
    omega
  · cases search : l.find? fun d => t.start d ≤ addr ∧ addr ≤ t.last d with
    | none =>
      rw [search] at found
      simp [answer] at found
    | some e =>
      rw [search] at found
      obtain rfl : e = d := by simpa [answer] using found
      simpa using find?_some search
  · have missing : (l.find? fun d => t.start d ≤ addr ∧ addr ≤ t.last d) = none := by
      refine find?_eq_none.mpr fun d mem => ?_
      obtain ⟨inTable, ready⟩ := (exactly d).mp mem
      simpa using out d inTable ready
    rw [missing]
    rfl

theorem cygFlashInit_silent (silent : ∀ d < t.size, answers d = false) :
    cygFlashInit t fuel .boot answers = some (.invalid, .boot) := by
  have same : (fun d => boot.ready d || decide (d < t.size) && answers d) = boot.ready := by
    funext d
    by_cases inTable : d < t.size
    · simp [boot, silent d inTable]
    · simp [boot, inTable]
  have still : ∀ ds : List Nat, ds.foldl (fun s dev => if s.ready dev then
    { s.setNext dev s.head with head := some dev } else s)
      boot = boot := by
    intro ds
    induction ds with
    | nil => rfl
    | cons d ds ih => exact ih
  have placed : place t boot = boot := still _
  rw [cygFlashInit, if_neg (by simp [boot]), same]
  simp only [flashSortAndCheck, show ({ boot with ready := boot.ready } :
    State) = boot from rfl, placed]
  rfl

/-- The first call to which a driver answers. -/
theorem cygFlashInit_first {d : Nat} (inTable : d < t.size) (answered : answers d = true) :
    ∃ fuel stat s' first, cygFlashInit t fuel .boot answers = some (stat, s') ∧ s'.head = some first ∧
      (first < t.size ∧ s'.ready first = true) ∧
      (Apart t answers → stat = .ok) ∧ (stat = .ok → s'.init = true ∧ Listed t s') ∧
      (¬Apart t answers → stat = .invalid ∧ s'.init = false) := by
  set s : State := { boot with ready := fun d => boot.ready d || decide (d < t.size) && answers d }
    with s_def
  have ready : ∀ d, s.ready d = true ↔ d < t.size ∧ answers d = true := fun d => by simp [s_def, boot]
  obtain ⟨chain, relinked⟩ := @place_spec t s rfl
  set l := ((List.range t.size).filter s.ready).reverse with l_def
  have exactly : ∀ d, d ∈ l ↔ d < t.size ∧ s.ready d = true := fun d => by simp [l_def]
  have nodup : l.Nodup := nodup_reverse.mpr (nodup_range.filter _)
  have mem : d ∈ l := (exactly d).mpr ⟨inTable, (ready d).mpr ⟨inTable, answered⟩⟩
  clear_value l
  cases l with
  | nil => simp at mem
  | cons first l =>
    have head : (place t s).head = some first := chain.1
    obtain ⟨fuel, s', l', sorts, relinked', chained, perm, sorted⟩ := @sort_spec t _ l first chain nodup
    cases l' with
    | nil => exact absurd perm.length_eq (by simp)
    | cons first' rest =>
      have head' : s'.head = some first' := chained.1
      obtain ⟨fuel', fine, checks, fineIff⟩ := @check_spec t _ rest first' chained sorted
      have same : s'.ready = s.ready := relinked'.1.trans relinked.1
      have inList : ∀ d, d ∈ first' :: rest ↔ d < t.size ∧ s'.ready d = true := fun d => by
        rw [perm.mem_iff, exactly, same]
      have nodup' := perm.nodup_iff.mpr nodup
      have apartIff : fine = true ↔ Apart t answers := by
        rw [fineIff]
        constructor
        · intro clear' a aIn b bIn aReady bReady ne
          have symmetric : Std.Symm fun a b => t.last a < t.start b ∨ t.last b < t.start a := ⟨fun _ _ => Or.symm⟩
          have either : (first' :: rest).Pairwise fun a b => t.last a < t.start b ∨ t.last b < t.start a :=
            clear'.imp fun less => .inl less
          exact Pairwise.forall either
            ((inList a).mpr ⟨aIn, by rw [same, ready]; exact ⟨aIn, aReady⟩⟩)
            ((inList b).mpr ⟨bIn, by rw [same, ready]; exact ⟨bIn, bReady⟩⟩) ne
        · intro apart
          have both := pairwise_and_iff.mpr ⟨sorted, nodup'⟩
          refine both.imp_of_mem fun {a b} aMember bMember le => ?_
          obtain ⟨aIn, aReady⟩ := (inList a).mp aMember
          obtain ⟨bIn, bReady⟩ := (inList b).mp bMember
          rw [same, ready] at aReady bReady
          have either := apart a aIn b bIn aReady.2 bReady.2 le.2
          have := t.proper b
          have := t.proper a
          omega
      have result : cygFlashInit t (max fuel fuel') .boot answers =
          if fine then some (.ok, { s' with init := true }) else some (.invalid, s') := by
        rw [cygFlashInit, if_neg (by simp [boot])]
        simp only [← s_def, flashSortAndCheck, head, bind_eq_bind, sort_mono
          (le_max_left ..) sorts, bind_some,
          head', check_mono (le_max_right ..) checks]
      have firstIn := (inList first').mp (mem_cons_self ..)
      cases fine with
      | true =>
        refine ⟨_, .ok, { s' with init := true }, first', result, head', firstIn, fun _ => rfl, fun _ => ⟨rfl, ?_⟩,
          fun overlap => absurd (apartIff.mp rfl) overlap⟩
        exact listed chained nodup' inList (fineIff.mp rfl) rfl
      | false =>
        refine ⟨_, .invalid, s', first', result, head', firstIn, fun apart => absurd (apartIff.mpr apart) (by simp),
          fun ok => by simp at ok, fun _ => ⟨rfl, ?_⟩⟩
        exact relinked'.2.trans relinked.2

/-- No list ends from here: the devices that have answered lead only to each other. -/
def Endless (t : Table) (s : State) : Prop :=
  (∃ d, s.head = some d ∧ d < t.size ∧ s.ready d = true) ∧
    ∀ d < t.size, s.ready d = true → ∃ e, s.next d = some e ∧ e < t.size ∧ s.ready e = true

theorem place_endless {first : Nat} (head : s.head = some first) (inTable : first < t.size)
    (answered : s.ready first = true) :
    Endless t (place t s) ∧ (place t s).init = s.init := by
  have placed : ∀ n ≤ t.size, let s' := (List.range n).foldl (fun s dev => if s.ready dev then
    { s.setNext dev s.head with head := some dev } else s) s
      s.Relinked s' ∧ (∃ d, s'.head = some d ∧ d < t.size ∧ s.ready d = true) ∧
        ∀ d < n, s.ready d = true → ∃ e, s'.next d = some e ∧ e < t.size ∧ s.ready e = true := by
    intro n le
    induction n with
    | zero => exact ⟨⟨rfl, rfl⟩, ⟨first, head, inTable, answered⟩, fun d less => absurd less (by omega)⟩
    | succ n ih =>
      simp only [range_succ, foldl_append, foldl_cons, foldl_nil]
      set before := (List.range n).foldl (fun s dev => if s.ready dev then
        { s.setNext dev s.head with head := some dev } else s) s
      obtain ⟨⟨ready, init⟩, ⟨d, heads, dIn, dReady⟩, linked⟩ := ih (by omega)
      rw [ready]
      by_cases here : s.ready n = true
      · rw [if_pos here]
        refine ⟨⟨ready, init⟩, ⟨n, rfl, by omega, here⟩, fun e less eReady => ?_⟩
        by_cases same : e = n
        · subst same
          exact ⟨d, by simpa using heads, dIn, dReady⟩
        · obtain ⟨e', link⟩ := linked e (by omega) eReady
          exact ⟨e', by simpa [same] using link⟩
      · rw [if_neg here]
        refine ⟨⟨ready, init⟩, ⟨d, heads, dIn, dReady⟩, fun e less eReady => linked e ?_ eReady⟩
        have : e ≠ n := by rintro rfl; exact here eReady
        omega
  obtain ⟨⟨ready, init⟩, heads, linked⟩ := placed t.size le_rfl
  refine ⟨⟨?_, ?_⟩, init⟩
  · rw [show (place t s).ready = s.ready from ready]
    exact heads
  · rw [show (place t s).ready = s.ready from ready]
    exact linked

section
variable (endless : Endless t s)
include endless

theorem Endless.setNext {e : Nat} (inTable : e < t.size) (answered : s.ready e = true) :
    Endless t (s.setNext dev (some e)) := by
  refine ⟨endless.1, fun d dIn dReady => ?_⟩
  by_cases same : d = dev
  · subst same
    exact ⟨e, by simp, inTable, answered⟩
  · obtain ⟨e', link, proper⟩ := endless.2 d dIn dReady
    exact ⟨e', by simpa [same] using link, proper⟩

theorem Endless.write {e : Nat} (inTable : e < t.size) (answered : s.ready e = true) :
    Endless t (s.write (some e) prev) := by
  cases prev with
  | none => exact ⟨⟨e, rfl, inTable, answered⟩, endless.2⟩
  | some d => exact endless.setNext inTable answered

theorem Endless.read (proper : ∀ d, prev = some d → d < t.size ∧ s.ready d = true) :
    ∃ e, s.read prev = some e ∧ e < t.size ∧ s.ready e = true := by
  cases prev with
  | none => exact endless.1
  | some d => exact endless.2 d (proper d rfl).1 (proper d rfl).2

theorem Endless.pass (inTable : dev < t.size) (answered : s.ready dev = true)
    (proper : ∀ d, prev = some d → d < t.size ∧ s.ready d = true) (ends : Init.pass t fuel s dev prev = some
      (s', moved)) :
    moved = true ∧ Endless t s' := by
  induction fuel generalizing dev prev with
  | zero => simp [Init.pass] at ends
  | succ fuel ih =>
    obtain ⟨later, link, laterIn, laterReady⟩ := endless.2 dev inTable answered
    rw [Init.pass] at ends
    simp only [link] at ends
    by_cases wrong : t.start dev > t.start later
    · rw [if_pos wrong] at ends
      have same : (s.write (some later) prev).ready = s.ready := relinked_write.1
      have written : Endless t (s.write (some later) prev) := endless.write laterIn laterReady
      obtain ⟨other, read, otherIn, otherReady⟩ := written.read fun d is => by rw [same]; exact proper d is
      obtain ⟨e, link', eIn, eReady⟩ := written.2 other otherIn otherReady
      have relinked : Endless t ((s.write (some later) prev).setNext dev (some e)) := written.setNext eIn eReady
      obtain ⟨other', read', _⟩ := relinked.read fun d is => by
        rw [show ((s.write (some later) prev).setNext dev (some e)).ready = s.ready from same]
        exact proper d is
      simp only [bind_eq_bind, read, bind_some, link', read', some.injEq, Prod.mk.injEq] at ends
      obtain ⟨rfl, rfl⟩ := ends
      exact ⟨rfl, relinked.setNext inTable (by
        rw [show ((s.write (some later) prev).setNext dev (some e)).ready = s.ready from same]
        exact answered)⟩
    · rw [if_neg wrong] at ends
      refine ih laterIn laterReady (fun d is => ?_) ends
      obtain rfl := some.inj is
      exact ⟨inTable, answered⟩

theorem Endless.sort (inTable : dev < t.size) (answered : s.ready dev = true) : Init.sort t fuel s dev = none := by
  induction fuel generalizing s dev with
  | zero => rfl
  | succ fuel ih =>
    rw [Init.sort]
    cases passed : Init.pass t fuel s dev none with
    | none => rfl
    | some r =>
      obtain ⟨s', moved⟩ := r
      obtain ⟨rfl, endless'⟩ := endless.pass inTable answered (by simp) passed
      obtain ⟨first, head, firstIn, firstReady⟩ := endless'.1
      simp only [bind_eq_bind, bind_some, if_true, head]
      exact ih endless' firstIn firstReady

end

theorem cygFlashInit_again {first : Nat} (head : s.head = some first) (inTable : first < t.size)
    (answered : s.ready first = true)
    (init : s.init = false) : cygFlashInit t fuel s answers = none := by
  rw [cygFlashInit, if_neg (by simp [init])]
  set s₁ : State := { s with ready := fun d => s.ready d || decide (d < t.size) && answers d }
  obtain ⟨endless, _⟩ := @place_endless t s₁ first head inTable (by simp [s₁, answered])
  obtain ⟨d, heads, dIn, dReady⟩ := endless.1
  have stuck : flashSortAndCheck t fuel s₁ = none := by
    simp only [flashSortAndCheck, heads, endless.sort dIn dReady]
    rfl
  simp only [stuck]
  rfl

theorem run_init (init : s.init = true) : run t fuel s calls = some (List.replicate calls.length (.ok, s)) := by
  induction calls with
  | nil => rfl
  | cons answers calls ih =>
    rw [run, cygFlashInit, if_pos init]
    simp only [bind_eq_bind, bind_some, ih]
    rfl

theorem run_silent (silent : ∀ d < t.size, answers d = false) : run t fuel .boot (answers :: calls) =
    (run t fuel .boot calls).map ((.invalid, .boot) :: ·) := by
  rw [run, cygFlashInit_silent silent]
  simp only [bind_eq_bind, bind_some]
  cases run t fuel .boot calls <;> rfl

theorem Initialises.notAgain (initialises : Initialises t calls) : NotAgain t calls := by
  obtain ⟨fuel, results, runs, -⟩ := initialises
  rintro before answers after rfl silent
  by_contra both
  obtain ⟨overlap, more⟩ := not_or.mp both
  obtain ⟨results', runs'⟩ : ∃ results', run t fuel .boot (answers :: after) = some results' := by
    clear both
    induction before generalizing results with
    | nil => exact ⟨results, runs⟩
    | cons c before ih =>
      rw [cons_append, run_silent (silent c (mem_cons_self ..))] at runs
      obtain ⟨rest, runs', -⟩ := map_eq_some_iff.mp runs
      exact ih rest runs' fun c' mem => silent c' (mem_cons_of_mem _ mem)
  obtain ⟨d, dIn, dReady⟩ : ∃ d < t.size, answers d = true := by
    by_contra nobody
    exact overlap fun a aIn _ _ aReady => absurd ⟨a, aIn, aReady⟩ nobody
  obtain ⟨fuel', stat, s', first, called, head, firstIn, _, _, failed⟩ := cygFlashInit_first dIn dReady
  obtain ⟨rfl, init⟩ := failed overlap
  obtain ⟨next, after, rfl⟩ := exists_cons_of_ne_nil more
  have longer := run_mono (le_max_left fuel fuel') runs'
  simp only [run, cygFlashInit_mono (le_max_right fuel fuel') called, bind_eq_bind, bind_some,
    cygFlashInit_again head firstIn.1 firstIn.2 init, bind_none] at longer
  cases longer

theorem NotAgain.initialises (notAgain : NotAgain t calls) : Initialises t calls := by
  induction calls with
  | nil => exact ⟨0, [], rfl, by simp, fun before answers after split => by simp at split⟩
  | cons answers calls ih =>
    by_cases silent : ∀ d < t.size, answers d = false
    · have rest : NotAgain t calls := by
        rintro before answers' after rfl quiet
        refine notAgain (answers :: before) answers' after rfl fun c mem => ?_
        rcases mem_cons.mp mem with rfl | further
        · exact silent
        · exact quiet c further
      obtain ⟨fuel, results, runs, lists, forgets⟩ := ih rest
      refine ⟨fuel, (.invalid, .boot) :: results, by rw [run_silent silent, runs]; rfl, ?_, ?_⟩
      · intro r mem ok
        rcases mem_cons.mp mem with rfl | further
        · simp at ok
        · exact lists r further ok
      · intro before answers' after split failed
        cases before with
        | nil =>
          obtain ⟨rfl, rfl⟩ := cons.inj split
          exact ⟨fuel, runs⟩
        | cons c before =>
          obtain ⟨rfl, rfl⟩ := cons.inj split
          obtain ⟨fuel', runs'⟩ := forgets before answers' after rfl (by simpa using failed)
          exact ⟨fuel', by rw [cons_append, run_silent silent, runs']; rfl⟩
    · obtain ⟨d, inTable, answered⟩ : ∃ d < t.size, answers d = true := by simpa using silent
      obtain ⟨fuel, stat, s', first, called, _, _, succeeds, lists, _⟩ := cygFlashInit_first inTable answered
      rcases notAgain [] answers calls rfl (by simp) with apart | rfl
      · obtain rfl := succeeds apart
        obtain ⟨init, listed⟩ := lists rfl
        refine ⟨fuel, replicate (calls.length + 1) (.ok, s'), ?_, ?_, ?_⟩
        · simp only [run, called, bind_eq_bind, bind_some, run_init init]
          rfl
        · intro r mem ok
          obtain rfl := eq_of_mem_replicate mem
          exact listed
        · rintro before answers' after split ⟨r, found, failed⟩
          obtain rfl := eq_of_mem_replicate (mem_of_getElem? found)
          exact absurd rfl failed
      · refine ⟨fuel, [(stat, s')], by simp only [run, called, bind_eq_bind, bind_some], ?_, ?_⟩
        · intro r mem ok
          obtain rfl := mem_singleton.mp mem
          exact (lists ok).2
        · intro before answers' after split failed
          cases before with
          | nil =>
            obtain ⟨rfl, rfl⟩ := cons.inj split
            exact ⟨0, rfl⟩
          | cons c before => simp at split

/-- Calls of `cyg_flash_init` initialise the list if and only if none follows one that has found devices that
  overlap. -/
theorem flash_init_recovers (t : Table) (calls : List (Nat → Bool)) : Initialises t calls ↔ NotAgain t calls :=
  ⟨Initialises.notAgain, NotAgain.initialises⟩

/-- Two devices that share addresses. -/
def shared : Table := ⟨2, fun d => 4 * d, fun d => 4 * d + 7, fun _ => by omega⟩

/-- The second call after an overlap does not end. -/
theorem flash_init_again_endless : ¬Initialises shared [fun _ => true, fun _ => true] := by
  intro initialises
  rcases initialises.notAgain [] _ _ rfl (by simp) with apart | none'
  · have := apart 0 (by decide) 1 (by decide) rfl rfl (by decide)
    simp [shared] at this
  · simp at none'

end Ecos.Flash.Init
