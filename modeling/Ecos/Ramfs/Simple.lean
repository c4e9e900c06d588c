import Ecos.Ramfs.File

namespace Ecos.Ramfs

/-- `CYGNUM_RAMFS_REALLOC_INCREMENT` and its legal values. -/
structure SimpleConfig where
  increment : Nat
  legal : 64 ≤ increment ∧ increment ≤ 32768

/-- A block of memory as `malloc` or `realloc` returned it. -/
structure Chunk where
  allocated : Nat
  byte : Nat → UInt8

/-- The data of a node with `CYGPKG_FS_RAM_SIMPLE`. -/
structure SimpleData where
  datasize : Nat
  data : Option Chunk

namespace Chunk

/-- `realloc` keeps the bytes there are; new memory holds anything. -/
def realloc (junk : Nat → UInt8) (c : Chunk) (size : Nat) : Chunk :=
  ⟨size, fun i => if i < c.allocated then c.byte i else junk i⟩

/-- `memset` to zero; `none` when it runs out of the block. -/
def clear (c : Chunk) (start n : Nat) : Option Chunk :=
  if start + n ≤ c.allocated then some { c with byte := overwrite c.byte start (List.replicate n 0) } else none

end Chunk

namespace SimpleData

def empty : SimpleData := ⟨0, none⟩

/-- `findbuffer_node`; a buffer is an offset into the data. -/
def findbufferNode (cfg : SimpleConfig) (junk : Nat → UInt8) (s : SimpleData) (pos : Nat) (alloc : Bool) :
    Option (SimpleData × Found Nat) :=
  if alloc = true ∧ (pos ≥ s.datasize ∨ s.datasize = 0) then
    let newdata : Chunk := match s.data with
      | none => ⟨cfg.increment, junk⟩
      | some data => data.realloc junk (pos + cfg.increment)
    (newdata.clear s.datasize (pos + cfg.increment - s.datasize)).map fun newdata =>
      (⟨pos + cfg.increment, some newdata⟩, .buffer (some pos) (pos + cfg.increment - pos))
  else if pos > s.datasize then some (s, .buffer none 0)
  else some (s, .buffer (s.data.map fun _ => pos) (s.datasize - pos))

def load (s : SimpleData) (fbuf l : Nat) : Option (List UInt8) :=
  s.data.bind fun c => if fbuf + l ≤ c.allocated then some (window c.byte fbuf l) else none

def store (s : SimpleData) (fbuf : Nat) (l : List UInt8) : Option SimpleData :=
  s.data.bind fun c =>
    if fbuf + l.length ≤ c.allocated then some { s with data := some { c with byte := overwrite c.byte fbuf l } } else none

end SimpleData

def simple (cfg : SimpleConfig) (junk : Nat → UInt8) : Storage SimpleData Nat where
  findbuffer := SimpleData.findbufferNode cfg junk
  load := SimpleData.load
  store := SimpleData.store

namespace SimpleData
variable {cfg : SimpleConfig} {junk : Nat → UInt8} {s : SimpleData} {f : Nat → UInt8} {size pos : Nat}

/-- `datasize` is what has been allocated, and behind it the contents are zero. -/
structure Holds (s : SimpleData) (f : Nat → UInt8) : Prop where
  allocated : ∀ c, s.data = some c → c.allocated = s.datasize ∧ 0 < s.datasize ∧ ∀ i < s.datasize, c.byte i = f i
  none : s.data = none → s.datasize = 0
  zero : ∀ i, s.datasize ≤ i → f i = 0

/-- A file without data is written from its beginning. -/
def Ok (s : SimpleData) (pos : Nat) : Prop := s.data = none → pos = 0

/-- The positions below `datasize` are stored. -/
def layout : Storage.Layout SimpleData := ⟨Holds, fun s i => i < s.datasize, Ok⟩

theorem Holds.empty : Holds empty fun _ => 0 where
  allocated c some := by simp [SimpleData.empty] at some
  none _ := rfl
  zero _ _ := rfl

theorem Holds.readable (holds : Holds s f) (inside : pos < s.datasize) (bound : size ≤ s.datasize) :
    (simple cfg junk).Readable s f size pos := by
  cases data : s.data with
  | none =>
    have empty := holds.none data
    omega
  | some c =>
    obtain ⟨allocated, _, bytes⟩ := holds.allocated c data
    refine ⟨some pos, s.datasize - pos, ?_, by omega, fun l le within => ?_⟩
    · simp [simple, findbufferNode, data, not_lt.mpr inside.le]
    · have room : pos + l ≤ c.allocated := by omega
      simp only [Storage.copyOut, simple, load, data, Option.bind_some, if_pos room]
      rw [window_congr fun i low high => bytes i (by omega)]

theorem Holds.grow (cfg : SimpleConfig) (junk : Nat → UInt8) (holds : Holds s f) (ok : s.Ok pos) (beyond : s.datasize ≤ pos) :
    ∃ c, findbufferNode cfg junk s pos true =
        some (⟨pos + cfg.increment, some c⟩, .buffer (some pos) (pos + cfg.increment - pos)) ∧
      Holds ⟨pos + cfg.increment, some c⟩ f := by
  have legal := cfg.legal
  have test : (true = true ∧ (pos ≥ s.datasize ∨ s.datasize = 0)) := ⟨rfl, .inl beyond⟩
  have step : ∀ c : Chunk, c.allocated = pos + cfg.increment → (∀ i < s.datasize, c.byte i = f i) →
      ∃ c', c.clear s.datasize (pos + cfg.increment - s.datasize) = some c' ∧ Holds ⟨pos + cfg.increment, some c'⟩ f := by
    intro c allocated bytes
    have room : s.datasize + (pos + cfg.increment - s.datasize) ≤ c.allocated := by omega
    refine ⟨_, if_pos room, ?_, by simp, fun i far => holds.zero i ?_⟩
    · rintro _ ⟨⟩
      refine ⟨allocated, by simp only; omega, fun i inside => ?_⟩
      simp only at inside ⊢
      by_cases old : i < s.datasize
      · rw [overwrite_of_lt old]
        exact bytes i old
      · rw [overwrite_inside (g := fun _ => 0) (by omega) (by rw [List.length_replicate]; omega),
          List.getD_replicate _ (by omega)]
        exact (holds.zero i (by omega)).symm
    · simp only at far
      omega
  cases data : s.data with
  | none =>
    obtain rfl := ok data
    obtain ⟨c', cleared, holds'⟩ := step ⟨cfg.increment, junk⟩ (by simp) (fun i less => by omega)
    refine ⟨c', ?_, holds'⟩
    unfold findbufferNode
    rw [if_pos test]
    simp only [data, cleared, Option.map_some]
  | some c =>
    obtain ⟨allocated, _, bytes⟩ := holds.allocated c data
    obtain ⟨c', cleared, holds'⟩ := step (c.realloc junk (pos + cfg.increment)) rfl (fun i less => by
      rw [← bytes i less]
      exact if_pos (by omega))
    refine ⟨c', ?_, holds'⟩
    unfold findbufferNode
    rw [if_pos test]
    simp only [data, cleared, Option.map_some]

theorem Holds.store {c : Chunk} (holds : Holds s f) (pos : Nat) (data : s.data = some c) (l : List UInt8)
    (room : pos + l.length ≤ s.datasize) :
    ∃ c', s.store pos l = some { s with data := some c' } ∧ Holds { s with data := some c' } (overwrite f pos l) := by
  obtain ⟨allocated, positive, bytes⟩ := holds.allocated c data
  refine ⟨{ c with byte := overwrite c.byte pos l }, ?_, ⟨?_, by simp, fun i far => ?_⟩⟩
  · simp only [SimpleData.store, data, Option.bind_some]
    rw [if_pos (by omega)]
  · rintro _ ⟨⟩
    exact ⟨allocated, positive, fun i inside => overwrite_congr (bytes i inside)⟩
  · rw [overwrite_of_ge (by simp only at far; omega)]
    exact holds.zero i far

theorem writes (cfg : SimpleConfig) (junk : Nat → UInt8) : (simple cfg junk).Writes layout where
  find := by
    intro s f pos holds ok
    have legal := cfg.legal
    have stores : ∀ {s : SimpleData} {c : Chunk} {n : Nat}, Holds s f → s.data = some c → pos + n ≤ s.datasize →
        ∀ l : List UInt8, l.length ≤ n → ∃ s'', s.store pos l = some s'' ∧ Holds s'' (overwrite f pos l) ∧
          layout.Grows s s'' ∧ (∀ i, pos ≤ i → i < pos + l.length → i < s''.datasize) ∧ ∀ q, Ok s'' q := by
      intro s c n holds data room l le
      obtain ⟨c', stored, holds'⟩ := holds.store pos data l (by omega)
      refine ⟨_, stored, holds', ⟨fun _ here => here, ?_⟩, fun i _ high => ?_, ?_⟩
      · intro q _ none
        simp at none
      · simp only
        omega
      · intro q none
        simp at none
    by_cases beyond : s.datasize ≤ pos
    · obtain ⟨c, found, holds'⟩ := Holds.grow cfg junk holds ok beyond
      refine ⟨_, holds', ⟨fun i here => ?_, fun q _ none => by simp at none⟩, .inr ⟨pos, _, found, by omega, ?_⟩⟩
      · have below : i < s.datasize := here
        show i < pos + cfg.increment
        omega
      · exact stores holds' rfl (by simp only; omega)
    · cases data : s.data with
      | none =>
        have empty := holds.none data
        omega
      | some c =>
        refine ⟨s, holds, .refl, .inr ⟨pos, s.datasize - pos, ?_, by omega, stores holds data (by omega)⟩⟩
        have test : ¬ (true = true ∧ (pos ≥ s.datasize ∨ s.datasize = 0)) := by omega
        show findbufferNode cfg junk s pos true = _
        unfold findbufferNode
        rw [if_neg test, if_neg (by omega), data]
        rfl

theorem space (s : SimpleData) (pos : Nat) (s' : SimpleData) :
    (simple cfg junk).findbuffer s pos true ≠ some (s', .noSpace) := by
  show findbufferNode cfg junk s pos true ≠ _
  unfold findbufferNode
  intro found
  split at found
  · obtain ⟨_, _, found⟩ := Option.map_eq_some_iff.mp found
    simp at found
  · split at found <;> simp at found

end SimpleData

end Ecos.Ramfs

namespace Ecos.Ramfs
open List Nat Storage File
variable {σ ρ H : Type} [DecidableEq H]

namespace File
variable {s : File σ H} {h : H}

/-- The file is as long as the highest position written. -/
structure Measured (s : File σ H) : Prop where
  below : ∀ p, s.log p ≠ none → p < s.node.size
  last : 0 < s.node.size → s.log (s.node.size - 1) ≠ none

theorem byte_overwrite {log : Nat → Option UInt8} {pos : Nat} {l : List UInt8} :
    (fun i => (overwrite log pos (l.map some) i).getD 0) = overwrite (fun i => (log i).getD 0) pos l := by
  funext i
  by_cases before : i < pos
  · rw [overwrite_of_lt before, overwrite_of_lt before]
  · by_cases after : pos + l.length ≤ i
    · rw [overwrite_of_ge after, overwrite_of_ge (by rw [length_map]; exact after)]
    · rw [overwrite_inside (g := fun _ => none) (by omega) (by rw [length_map]; omega),
        overwrite_inside (g := fun _ => 0) (by omega) (by omega)]
      simp [getD_eq_getElem?_getD, getElem?_eq_getElem (show i - pos < l.length by omega)]

theorem log_overwrite {log : Nat → Option UInt8} {pos i : Nat} {l : List UInt8} :
    overwrite log pos (l.map some) i ≠ none ↔ (pos ≤ i ∧ i < pos + l.length) ∨ log i ≠ none := by
  by_cases before : i < pos
  · rw [overwrite_of_lt before]
    constructor
    · exact .inr
    · rintro (⟨low, _⟩ | written)
      · omega
      · exact written
  · by_cases after : pos + l.length ≤ i
    · rw [overwrite_of_ge (by rw [length_map]; exact after)]
      constructor
      · exact .inr
      · rintro (⟨_, high⟩ | written)
        · omega
        · exact written
    · rw [overwrite_inside (g := fun _ => none) (by omega) (by rw [length_map]; omega)]
      have inside : i - pos < l.length := by omega
      simp [getD_eq_getElem?_getD, getElem?_eq_getElem inside]
      omega

theorem Measured.write {pos : Nat} {l : List UInt8} {node : Node σ} {fp : H → Handle} (measured : s.Measured)
    (size : node.size = max s.node.size (pos + l.length)) (some' : l = [] → pos ≤ s.node.size) :
    Measured ⟨node, fp, overwrite s.log pos (l.map some)⟩ where
  below p written := by
    simp only [size]
    rcases log_overwrite.mp written with ⟨_, high⟩ | before
    · omega
    · have below := measured.below p before
      omega
  last positive := by
    simp only [size] at positive ⊢
    refine log_overwrite.mpr ?_
    cases l with
    | nil =>
      have start := some' rfl
      rw [length_nil, Nat.add_zero, Nat.max_eq_left start] at positive ⊢
      exact .inr (measured.last positive)
    | cons b rest =>
      rw [length_cons] at positive ⊢
      by_cases longer : s.node.size ≤ pos + (rest.length + 1)
      · exact .inl ⟨by omega, by omega⟩
      · rw [max_eq_left (by omega)]
        exact .inr (measured.last (by omega))

end File

namespace SimpleData
variable {cfg : SimpleConfig} {junk : Nat → UInt8} {s : File SimpleData H} {h : H}

/-- A write that begins in the file, or adds bytes to a file that has data. -/
def Kind (s : File SimpleData H) : FileEvent H → Prop
  | .write h bufs =>
    Storage.startOf s.node (s.fp h) ≤ s.node.size ∨ (bufs.flatten ≠ [] ∧ s.node.data.data ≠ none)
  | _ => True

structure Good (s : File SimpleData H) : Prop where
  holds : Holds s.node.data s.byte
  size : s.node.size ≤ s.node.data.datasize
  measured : s.Measured

theorem Good.read (good : Good s) (cfg : SimpleConfig) (junk : Nat → UInt8) (h : H) (lens : List Nat) :
    (simple cfg junk).foRead s.node (s.fp h) lens = some (s.node,
      { s.fp h with offset := (s.fp h).offset + min lens.sum (s.node.size - (s.fp h).offset) },
      .ok (Storage.scatter s.byte s.node.size (s.fp h).offset lens)) :=
  foRead_eq lens fun _ _ _ below => good.holds.readable (lt_of_lt_of_le below good.size) good.size

theorem Good.write (good : Good s) (cfg : SimpleConfig) (junk : Nat → UInt8) {bufs : List (List UInt8)} (kind : Kind s (.write h bufs)) :
    ∃ data, (simple cfg junk).foWrite s.node (s.fp h) bufs =
        some (⟨max s.node.size (Storage.startOf s.node (s.fp h) + bufs.flatten.length), data⟩,
          { s.fp h with offset := Storage.startOf s.node (s.fp h) + bufs.flatten.length }, false) ∧
      Holds data (overwrite s.byte (Storage.startOf s.node (s.fp h)) bufs.flatten) ∧
      max s.node.size (Storage.startOf s.node (s.fp h) + bufs.flatten.length) ≤ data.datasize := by
  generalize begin : startOf s.node (s.fp h) = start at kind ⊢
  have allowed : bufs.flatten ≠ [] → Ok s.node.data start := by
    intro _ none
    have empty := good.holds.none none
    have size := good.size
    rcases kind with inside | ⟨_, some⟩
    · rw [begin] at inside
      omega
    · exact absurd none some
  obtain ⟨data, k, full, result, written, unbounded⟩ :=
    (writes cfg junk).foWrite s.node (s.fp h) bufs (f := s.byte) good.holds
      (by rw [begin]; exact allowed)
  rw [begin] at result written
  have all : k = bufs.flatten.length := by
    by_contra short
    have less : k < bufs.flatten.length := lt_of_le_of_ne written.le short
    exact space data (start + k) data (written.short less).2
  subst all
  obtain rfl := unbounded space
  have holds := written.holds
  rw [take_length] at holds
  refine ⟨data, result, holds, ?_⟩
  have grown : s.node.data.datasize ≤ data.datasize := by
    by_contra less
    have kept : data.datasize < data.datasize := written.grows.stored data.datasize (Nat.lt_of_not_le less)
    omega
  have size := good.size
  by_cases none : bufs.flatten = []
  · rcases kind with inside | ⟨some, _⟩
    · rw [begin] at inside
      rw [none, length_nil]
      omega
    · exact absurd none some
  · have positive := length_pos_iff.mpr none
    have last : start + bufs.flatten.length - 1 < data.datasize := written.stored _ (by omega) (by omega)
    omega

theorem Good.step (good : Good s) {e : FileEvent H} (kind : Kind s e) : Good (s.step (simple cfg junk) e) := by
  cases e with
  | lseek h pos whence =>
    simp only [File.step]
    split
    · exact good
    · exact ⟨good.holds, good.size, ⟨good.measured.below, good.measured.last⟩⟩
  | read h lens =>
    simp only [File.step, good.read cfg junk h lens]
    exact ⟨good.holds, good.size, ⟨good.measured.below, good.measured.last⟩⟩
  | write h bufs =>
    obtain ⟨data, result, holds, size⟩ := good.write cfg junk kind
    simp only [File.step, result]
    rw [Nat.add_sub_cancel_left, take_length]
    refine ⟨?_, size, good.measured.write rfl ?_⟩
    · unfold byte
      rw [byte_overwrite]
      exact holds
    · intro none
      rcases kind with inside | ⟨some, _⟩
      · exact inside
      · exact absurd none some

/-- In every run of such writes a file is a byte map: it ends behind the highest
position written, a read returns the bytes last written and zero elsewhere, and
every access lies inside the memory that was allocated. -/
theorem simple_file_byte_map (reach : (File.machine (simple cfg junk) empty (Kind (H := H))).Reach s) :
    s.Measured ∧ (∀ c, s.node.data.data = some c → s.node.data.datasize ≤ c.allocated) ∧
    (∀ h lens, (simple cfg junk).foRead s.node (s.fp h) lens = some (s.node,
      { s.fp h with offset := (s.fp h).offset + min lens.sum (s.node.size - (s.fp h).offset) },
      .ok (Storage.scatter s.byte s.node.size (s.fp h).offset lens))) ∧
    ∀ h bufs, Kind s (.write h bufs) → ∃ node, (simple cfg junk).foWrite s.node (s.fp h) bufs =
      some (node, { s.fp h with offset := Storage.startOf s.node (s.fp h) + bufs.flatten.length }, false) := by
  have good : Good s := by
    refine reach.kept (P := Good) ?_ fun s e good ok => good.step ok.2
    rintro _ ⟨append, rfl⟩
    exact ⟨Holds.empty, le_rfl, ⟨fun p written => absurd rfl written, fun positive => absurd positive (lt_irrefl _)⟩⟩
  refine ⟨good.measured, fun c some => Nat.le_of_eq (good.holds.allocated c some).1.symm, good.read cfg junk, ?_⟩
  intro h bufs kind
  obtain ⟨data, result, _⟩ := good.write cfg junk kind
  exact ⟨_, result⟩

def defaultIncrement : SimpleConfig := ⟨256, by decide⟩

/-- Three bytes, then one behind a hole for which the data has to grow. -/
def sparse : List (FileEvent Unit) :=
  [.write () [[1, 2], [3]], .lseek () 300 .set, .write () [[7]], .lseek () 1 .set]

def sparseFile : File SimpleData Unit :=
  sparse.foldl (File.step (simple defaultIncrement fun _ => 0xff)) ⟨⟨0, empty⟩, fun _ => ⟨0, false⟩, fun _ => none⟩

theorem simple_file_byte_map_sparse : sparseFile.node.size = 301 ∧
    ∃ node fp, (simple defaultIncrement fun _ => 0xff).foRead sparseFile.node (sparseFile.fp ()) [3, 1] =
      some (node, fp, .ok [[2, 3, 0], [0]]) := by
  have seeks : ∀ (s : File SimpleData Unit) (n : Nat), s.Enabled (.lseek () n .set) := by
    rintro s n p ⟨⟩
    exact Int.natCast_nonneg n
  have reach : (File.machine (simple defaultIncrement fun _ => 0xff) empty Kind).Reach sparseFile :=
    Machine.Reach.run (.start ⟨fun _ => false, rfl⟩) ⟨⟨trivial, .inl (by decide)⟩, ⟨seeks _ 300, trivial⟩,
      ⟨trivial, .inr ⟨by decide, by decide⟩⟩, ⟨seeks _ 1, trivial⟩, trivial⟩
  have result := (simple_file_byte_map reach).2.2.1 () [3, 1]
  have bytes : Storage.scatter sparseFile.byte sparseFile.node.size (sparseFile.fp ()).offset [3, 1] = [[2, 3, 0], [0]] := by
    decide +kernel
  rw [bytes] at result
  exact ⟨by decide +kernel, _, _, result⟩

/-- The first write to a file is made behind its beginning: `malloc` gets the
increment only, and the `memset` runs out of it. -/
theorem first_write_overruns : ¬ ∀ (cfg : SimpleConfig) (junk : Nat → UInt8) (s : File SimpleData Unit),
    (File.machine (simple cfg junk) empty fun _ _ => True).Reach s →
    ∀ h bufs, (simple cfg junk).foWrite s.node (s.fp h) bufs ≠ none := by
  intro claim
  have start : (File.machine (simple defaultIncrement fun _ => 0) empty fun _ _ => True).Reach
      (⟨⟨0, empty⟩, fun _ => ⟨0, false⟩, fun _ => none⟩ : File SimpleData Unit) := .start ⟨fun _ => false, rfl⟩
  have sought := start.next ⟨.lseek () 1000 .set, ⟨by rintro p ⟨⟩; decide, trivial⟩, rfl⟩
  exact claim _ _ _ sought () [[7]] (by decide +kernel)

end SimpleData

end Ecos.Ramfs
