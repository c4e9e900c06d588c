import Ecos.Ramfs.BlocksFind
import Ecos.Ramfs.Simple

namespace Ecos.Ramfs.BlocksData
open Option Nat Storage File
variable {B H : Type} [DecidableEq B] [DecidableEq H] {cfg : BlocksConfig} {p : Place} {b : B} {f : Nat → UInt8}
  {pos size : Nat}

section Data
variable {s s' : BlocksData B}

/-- Bytes written into a block with data. -/
def put (s : BlocksData B) (b : B) (byte : Nat → UInt8) : BlocksData B :=
  { s with blocks := Function.update s.blocks b (.bytes byte) }

theorem Tree.put_get (tree : s.Tree cfg) (here : s.get p = some b) (flat : p.depth = 0) (byte : Nat → UInt8) (q : Place) :
    (s.put b byte).get q = s.get q := by
  induction q with
  | root r i => rfl
  | entry q j ih =>
    simp only [get, ih]
    cases at' : s.get q with
    | none => rfl
    | some c =>
      by_cases same : c = b
      · subst same
        obtain rfl := tree.distinct at' here
        have leaf : s.get (.entry q j) = none := by
          cases below : s.get (.entry q j) with
          | none => rfl
          | some d =>
            have deep := (tree.legal below).2.1
            omega
        simp only [get, at', bind_some] at leaf
        simp [put, leaf]
      · simp [put, same]

theorem Tree.put (tree : s.Tree cfg) (here : s.get p = some b) (flat : p.depth = 0) (byte : Nat → UInt8) :
    (s.put b byte).Tree cfg := by
  have get := tree.put_get here flat byte
  refine ⟨fun at' => tree.legal (get _ ▸ at'), fun at' at'' => tree.distinct (get _ ▸ at') (get _ ▸ at''),
    fun at' => tree.used (get _ ▸ at'), tree.nodup, fun {q c} at' deep => ?_, fun {q c} at' flat' => ?_⟩
  · rw [get] at at'
    have ne : c ≠ b := by
      rintro rfl
      obtain rfl := tree.distinct at' here
      omega
    simpa [BlocksData.put, ne] using tree.tables at' deep
  · rw [get] at at'
    by_cases same : c = b
    · simp [BlocksData.put, same]
    · simpa [BlocksData.put, same] using tree.leaves at' flat'

theorem Holds.store (aligned : cfg.Aligned) (holds : s.Holds cfg f) (placed : cfg.place pos = some p)
    (here : s.get p = some b) (l : List UInt8) (room : l.length ≤ cfg.blockSize - pos % cfg.blockSize) :
    ∃ s', s.store cfg (b, pos % cfg.blockSize) l = some s' ∧ s'.Holds cfg (overwrite f pos l) ∧
      (∀ q, s'.get q = s.get q) ∧ s'.free = s.free := by
  obtain ⟨small, _⟩ := cfg.legal
  have positive : 0 < cfg.blockSize := by omega
  have flat := (BlocksConfig.place_legal placed).2
  have inside := mod_lt pos positive
  obtain ⟨byte, data⟩ := ne_none_iff_exists'.mp (holds.tree.leaves here flat)
  have get := holds.tree.put_get here flat (overwrite byte (pos % cfg.blockSize) l)
  refine ⟨s.put b (overwrite byte (pos % cfg.blockSize) l), ?_, ⟨holds.tree.put here flat _, fun pos' q placed' => ?_⟩, get, rfl⟩
  · simp only [BlocksData.store, data, map_some]
    rw [if_pos (by omega)]
    rfl
  · have before := holds.bytes pos' q placed'
    have base := div_add_mod pos cfg.blockSize
    have base' := div_add_mod pos' cfg.blockSize
    unfold byteAt at before ⊢
    rw [get]
    by_cases same : q = p
    · subst same
      have number := aligned.place_inj placed' placed
      rw [number] at base'
      simp only [here, data, getD_some] at before
      simp only [here, BlocksData.put, Function.update_self, Block.data_bytes, getD_some]
      have shift := overwrite_shift (f := f) (m := cfg.blockSize * (pos / cfg.blockSize)) (p := pos % cfg.blockSize)
        (l := l) (i := pos' % cfg.blockSize)
      rw [base, base'] at shift
      rw [← shift]
      refine overwrite_congr ?_
      rw [before, base']
    · have away : overwrite f pos l pos' = f pos' := by
        by_cases early : pos' < pos
        · exact overwrite_of_lt early
        · refine overwrite_of_ge ?_
          by_contra late
          have number : pos' / cfg.blockSize = pos / cfg.blockSize := BlocksConfig.div_block _ (by omega) (by omega)
          have equal := aligned.place_congr number
          rw [placed', placed] at equal
          exact same (some.inj equal)
      rw [away, ← before]
      cases at' : s.get q with
      | none => rfl
      | some c =>
        have ne : c ≠ b := by
          rintro rfl
          exact same (holds.tree.distinct at' here)
        simp [BlocksData.put, ne]

/-- A position is stored where its block is there; it may be written everywhere. -/
def layout (cfg : BlocksConfig) : Storage.Layout (BlocksData B) :=
  ⟨Holds cfg, fun s i => ∃ p, cfg.place i = some p ∧ s.get p ≠ none, fun _ _ => True⟩

theorem Extends.grows (extends' : s.Extends s') : (layout cfg).Grows s s' := by
  refine ⟨?_, fun _ ok => ok⟩
  rintro i ⟨p, placed, here⟩
  obtain ⟨b, at'⟩ := ne_none_iff_exists'.mp here
  exact ⟨p, placed, by simp [extends' p b at']⟩

section
variable (aligned : cfg.Aligned)
include aligned

theorem Holds.full (holds : s.Holds cfg f) (placed : cfg.place pos = some p)
    (none : s.get p = none) (empty : s.free = []) : (blockwise cfg).Full s pos := by
  obtain ⟨s', _, _, same, ⟨result, _⟩ | ⟨b, _, here⟩⟩ := holds.node aligned placed
  · rw [same empty] at result
    exact result
  · rw [same empty, none] at here
    simp at here

theorem writes : (blockwise (B := B) cfg).Writes (layout cfg) where
  find := by
    intro s f pos holds _
    obtain ⟨small, _⟩ := cfg.legal
    cases placed : cfg.place pos with
    | none =>
      have full : (blockwise cfg).Full s pos := node_beyond placed
      exact ⟨s, holds, .refl, .inl ⟨full, full⟩⟩
    | some p =>
      have inside := mod_lt pos (show 0 < cfg.blockSize by omega)
      obtain ⟨s', holds', extends', _, ⟨result, empty, none⟩ | ⟨b, result, here⟩⟩ :=
        Holds.node aligned (show s.Holds cfg f from holds) placed
      · exact ⟨s', holds', extends'.grows, .inl ⟨result, holds'.full aligned placed none empty⟩⟩
      · refine ⟨s', holds', extends'.grows, .inr ⟨_, _, result, by omega, fun l le => ?_⟩⟩
        obtain ⟨s'', stored, holds'', get, _⟩ := holds'.store aligned placed here l le
        refine ⟨s'', stored, holds'', ?_, fun i low high => ⟨p, ?_, ?_⟩, fun _ => trivial⟩
        · exact Extends.grows fun q c at' => (get q).trans at'
        · rw [← placed]
          exact aligned.place_congr (BlocksConfig.div_block _ low (by omega))
        · rw [get, here]
          simp

theorem Holds.readable (holds : s.Holds cfg f) (placed : cfg.place pos = some p)
    (tabled : s.Tabled p) : (blockwise cfg).Readable s f size pos := by
  obtain ⟨small, _⟩ := cfg.legal
  have inside := mod_lt pos (show 0 < cfg.blockSize by omega)
  have base := div_add_mod pos cfg.blockSize
  have flat := (BlocksConfig.place_legal placed).2
  have same : ∀ i, pos ≤ i → i < pos + (cfg.blockSize - pos % cfg.blockSize) →
      cfg.place i = some p ∧ i % cfg.blockSize = pos % cfg.blockSize + (i - pos) := by
    intro i low high
    have number := BlocksConfig.div_block _ low high
    have base' := div_add_mod i cfg.blockSize
    rw [number] at base'
    exact ⟨(aligned.place_congr number).trans placed, by omega⟩
  refine ⟨_, _, holds.tree.node_look aligned placed tabled, by omega, fun l le _ => ?_⟩
  cases here : s.get p with
  | none =>
    refine congrArg some (window_const fun i low high => ?_).symm
    obtain ⟨placed', _⟩ := same i low (by omega)
    rw [← holds.bytes i p placed', byteAt, here]
  | some b =>
    obtain ⟨byte, data⟩ := ne_none_iff_exists'.mp (holds.tree.leaves here flat)
    have room : pos % cfg.blockSize + l ≤ cfg.blockSize := by omega
    show s.load cfg (b, pos % cfg.blockSize) l = _
    simp only [load, if_pos room, data, map_some]
    refine congrArg some ?_
    have shifted : window f pos l = window (fun i => f (cfg.blockSize * (pos / cfg.blockSize) + i)) (pos % cfg.blockSize) l := by
      rw [window_shift, base]
    rw [shifted]
    refine window_congr fun i low high => ?_
    obtain ⟨placed', offset⟩ := same (cfg.blockSize * (pos / cfg.blockSize) + i) (by omega) (by omega)
    have value := holds.bytes _ p placed'
    rw [offset, byteAt, here] at value
    simp only [data, getD_some] at value
    rw [← value]
    congr 1
    omega

theorem Holds.full_cases (holds : s.Holds cfg f) (full : (blockwise cfg).Full s pos) :
    s.free = [] ∨ cfg.limit ≤ pos := by
  have full : s.findbufferNode cfg pos true = some (s, .noSpace) := full
  cases placed : cfg.place pos with
  | none =>
    refine .inr (Nat.le_of_not_lt fun below => ?_)
    have placed' := BlocksConfig.place_isSome.mpr below
    simp [placed] at placed'
  | some p =>
    obtain ⟨s', _, _, _, ⟨result, empty, _⟩ | ⟨b, result, _⟩⟩ := holds.node aligned placed
    · rw [full] at result
      obtain rfl : s = s' := by simpa using result
      exact .inl empty
    · rw [full] at result
      simp at result

end

theorem empty_get (contents : B → Block B) (free : List B) (p : Place) : (empty contents free).get p = none := by
  induction p with
  | root r i => rfl
  | entry p i ih => simp [get, ih]

theorem Holds.empty {contents : B → Block B} {free : List B} (nodup : free.Nodup) :
    (empty contents free).Holds cfg fun _ => 0 := by
  have nothing : ∀ {p : Place} {b : B}, (BlocksData.empty contents free).get p ≠ some b := by
    intro p b here
    rw [empty_get] at here
    simp at here
  refine ⟨⟨fun here => absurd here nothing, fun here => absurd here nothing, fun here => absurd here nothing, nodup,
    fun here => absurd here nothing, fun here => absurd here nothing⟩, fun pos p _ => ?_⟩
  rw [byteAt, empty_get]

end Data

variable {s : File (BlocksData B) H} {h : H}

/-- A write that does not begin behind the last position a file can have, and a
read of positions whose tables are there. -/
def Kind (cfg : BlocksConfig) (s : File (BlocksData B) H) : FileEvent H → Prop
  | .lseek .. => True
  | .write h _ => Storage.startOf s.node (s.fp h) ≤ cfg.limit
  | .read h lens => ∀ pos p, (s.fp h).offset ≤ pos → pos < (s.fp h).offset + lens.sum → pos < s.node.size →
      cfg.place pos = some p → s.node.data.Tabled p

structure Good (cfg : BlocksConfig) (s : File (BlocksData B) H) : Prop where
  holds : s.node.data.Holds cfg s.byte
  size : s.node.size ≤ cfg.limit

theorem Good.read (aligned : cfg.Aligned) (good : Good cfg s) {lens : List Nat} (kind : Kind cfg s (.read h lens)) :
    (blockwise cfg).foRead s.node (s.fp h) lens = some (s.node,
      { s.fp h with offset := (s.fp h).offset + min lens.sum (s.node.size - (s.fp h).offset) },
      .ok (Storage.scatter s.byte s.node.size (s.fp h).offset lens)) := by
  refine foRead_eq lens fun pos low high below => ?_
  obtain ⟨p, placed⟩ := isSome_iff_exists.mp
    (BlocksConfig.place_isSome.mpr (lt_of_lt_of_le below good.size))
  exact good.holds.readable aligned placed (kind pos p low high below placed)

theorem Good.write (aligned : cfg.Aligned) (good : Good cfg s) {bufs : List (List UInt8)} (kind : Kind cfg s (.write h bufs)) :
    ∃ data k full, (blockwise cfg).foWrite s.node (s.fp h) bufs =
        some (⟨max s.node.size (Storage.startOf s.node (s.fp h) + k), data⟩,
          { s.fp h with offset := Storage.startOf s.node (s.fp h) + k }, full) ∧
      k ≤ bufs.flatten.length ∧
      data.Holds cfg (overwrite s.byte (Storage.startOf s.node (s.fp h)) (bufs.flatten.take k)) ∧
      Storage.startOf s.node (s.fp h) + k ≤ cfg.limit ∧
      (k < bufs.flatten.length → data.free = [] ∨ cfg.limit ≤ Storage.startOf s.node (s.fp h) + k) := by
  have kind : startOf s.node (s.fp h) ≤ cfg.limit := kind
  obtain ⟨data, k, full, result, written, _⟩ :=
    (writes aligned).foWrite s.node (s.fp h) bufs (f := s.byte) good.holds fun _ => trivial
  refine ⟨data, k, full, result, written.le, written.holds, ?_, fun less => ?_⟩
  · by_cases none : k = 0
    · omega
    · obtain ⟨p, placed, _⟩ := written.stored (startOf s.node (s.fp h) + k - 1) (by omega) (by omega)
      have below := BlocksConfig.place_isSome.mp (by rw [placed]; rfl)
      omega
  · have holds : data.Holds cfg _ := written.holds
    exact holds.full_cases aligned (written.short less).2

theorem Good.step (aligned : cfg.Aligned) (good : Good cfg s) {e : FileEvent H} (kind : Kind cfg s e) :
    Good cfg (s.step (blockwise cfg) e) := by
  cases e with
  | lseek h pos whence =>
    simp only [File.step]
    split
    · exact good
    · exact ⟨good.holds, good.size⟩
  | read h lens =>
    simp only [File.step, good.read aligned kind]
    exact ⟨good.holds, good.size⟩
  | write h bufs =>
    obtain ⟨data, k, full, result, _, holds, below, _⟩ := good.write aligned kind
    simp only [File.step, result]
    rw [Nat.add_sub_cancel_left]
    refine ⟨?_, max_le good.size below⟩
    unfold byte
    rw [byte_overwrite]
    exact holds

/-- Three bytes across the end of the direct blocks. -/
def across : List (FileEvent Unit) := [.lseek () 2046 .set, .write () [[1, 2], [3]], .lseek () 2045 .set]

end Ecos.Ramfs.BlocksData
