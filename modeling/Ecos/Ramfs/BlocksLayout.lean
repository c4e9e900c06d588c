import Ecos.Ramfs.Blocks

namespace Ecos.Ramfs
open Function Option Nat

/-- Where a block hangs: on an array of the node, or on a block that holds pointers. -/
inductive Place
  | root (r : Root) (i : Nat)
  | entry (p : Place) (i : Nat)
  deriving DecidableEq, Repr

namespace Place

/-- How many levels of tables lie below a place. -/
def depth : Place → Nat
  | root .direct _ => 0
  | root .indirect1 _ => 1
  | root .indirect2 _ => 2
  | entry p _ => p.depth - 1

def index : Place → Nat
  | root _ i => i
  | entry _ i => i

/-- The pointer to a place is one of its table. -/
def Legal (cfg : BlocksConfig) : Place → Prop
  | root r i => i < BlocksData.rootLength cfg r
  | entry p i => p.Legal cfg ∧ 0 < p.depth ∧ i < cfg.indirectPerBlock

end Place

namespace BlocksData
variable {B : Type} [DecidableEq B] {cfg : BlocksConfig} {s s' : BlocksData B} {p q : Place} {b c : B} {t : Table B}
  {pos i : Nat} {alloc : Bool}

/-- The block at a place. -/
def get (s : BlocksData B) : Place → Option B
  | .root r i => s.root r i
  | .entry p i => (s.get p).bind fun b => (s.blocks b).entries.bind fun entries => entries i

/-- The array that holds the pointer to a place. -/
def parent (s : BlocksData B) : Place → Option (Table B)
  | .root r _ => some (.node r)
  | .entry p _ => (s.get p).map .block

/-- The blocks of a node form a tree: no block is in two places or free, and the
blocks above others are tables. -/
structure Tree (cfg : BlocksConfig) (s : BlocksData B) : Prop where
  legal : ∀ {p b}, s.get p = some b → p.Legal cfg
  distinct : ∀ {p q b}, s.get p = some b → s.get q = some b → p = q
  used : ∀ {p b}, s.get p = some b → b ∉ s.free
  nodup : s.free.Nodup
  tables : ∀ {p b}, s.get p = some b → 0 < p.depth → (s.blocks b).entries ≠ none
  leaves : ∀ {p b}, s.get p = some b → p.depth = 0 → (s.blocks b).data ≠ none

/-- A free block hung up at a place that has none. -/
def hang (s : BlocksData B) (t : Table B) (i : Nat) (b : B) (free : List B) : Option (BlocksData B) :=
  setEntry { s with free, blocks := Function.update s.blocks b .zero } t i b

theorem Tree.entry_eq (tree : s.Tree cfg) (legal : p.Legal cfg) (parent : s.parent p = some t) :
    s.entry cfg t p.index = some (s.get p) := by
  cases p with
  | root r i =>
    obtain rfl : Table.node r = t := some.inj parent
    exact if_pos legal
  | entry p i =>
    obtain ⟨b, here, rfl⟩ := map_eq_some_iff.mp parent
    obtain ⟨_, deep, less⟩ := legal
    obtain ⟨entries, table⟩ := ne_none_iff_exists'.mp (tree.tables here deep)
    have small : i < tableLength cfg (Table.block b) := less
    simp [BlocksData.entry, Place.index, get, here, table, small]

theorem tableLength_parent (legal : p.Legal cfg) (parent : s.parent p = some t) : p.index < tableLength cfg t := by
  cases p with
  | root r i =>
    obtain rfl : Table.node r = t := some.inj parent
    exact legal
  | entry p i =>
    obtain ⟨b, _, rfl⟩ := map_eq_some_iff.mp parent
    exact legal.2.2

theorem Tree.direct_found (tree : s.Tree cfg) (pos : Nat) (alloc : Bool) (legal : p.Legal cfg)
    (parent : s.parent p = some t)
    (here : pos / cfg.blockSize = p.index) (at' : s.get p = some b) :
    s.findbufferDirect cfg pos (some t) (tableLength cfg t) alloc =
      some (s, .buffer (some (b, pos % cfg.blockSize)) (cfg.blockSize - pos % cfg.blockSize)) := by
  have small := tableLength_parent legal parent
  have entry := tree.entry_eq legal parent
  rw [at'] at entry
  simp [findbufferDirect, here, not_le.mpr small, entry]

theorem Tree.direct_hole (tree : s.Tree cfg) (legal : p.Legal cfg) (parent : s.parent p = some t)
    (here : pos / cfg.blockSize = p.index) (none : s.get p = none) :
    s.findbufferDirect cfg pos (some t) (tableLength cfg t) false =
      some (s, .buffer Option.none (cfg.blockSize - pos % cfg.blockSize)) := by
  have small := tableLength_parent legal parent
  have entry := tree.entry_eq legal parent
  rw [none] at entry
  simp [findbufferDirect, here, not_le.mpr small, entry]

theorem Tree.direct_full (tree : s.Tree cfg) (legal : p.Legal cfg) (parent : s.parent p = some t)
    (here : pos / cfg.blockSize = p.index) (none : s.get p = none) (free : s.free = []) :
    s.findbufferDirect cfg pos (some t) (tableLength cfg t) true = some (s, .noSpace) := by
  have small := tableLength_parent legal parent
  have entry := tree.entry_eq legal parent
  rw [none] at entry
  simp [findbufferDirect, here, not_le.mpr small, entry, blockAlloc, free]

theorem Tree.direct_alloc {free : List B} (tree : s.Tree cfg) (legal : p.Legal cfg) (parent : s.parent p = some t)
    (here : pos / cfg.blockSize = p.index) (none : s.get p = none) (some' : s.free = b :: free) :
    s.findbufferDirect cfg pos (some t) (tableLength cfg t) true = (s.hang t p.index b free).map fun s =>
      (s, .buffer (some (b, pos % cfg.blockSize)) (cfg.blockSize - pos % cfg.blockSize)) := by
  have small := tableLength_parent legal parent
  have entry := tree.entry_eq legal parent
  rw [none] at entry
  simp [findbufferDirect, here, not_le.mpr small, entry, blockAlloc, some', hang]

/-- What has been hung up: one block, at one place. -/
structure Hung (s s' : BlocksData B) (p : Place) (b : B) (free : List B) : Prop where
  get : ∀ q, s'.get q = if q = p then some b else s.get q
  free : s'.free = free
  new : s'.blocks b = .zero
  data : ∀ {q c}, s.get q = some c → (s'.blocks c).data = (s.blocks c).data ∨ 0 < q.depth
  tables : ∀ {q c}, s.get q = some c → (s.blocks c).entries ≠ none → (s'.blocks c).entries ≠ none

theorem Tree.hang {free : List B} (tree : s.Tree cfg) (legal : p.Legal cfg) (parent : s.parent p = some t)
    (none : s.get p = none) (some' : s.free = b :: free) :
    ∃ s', s.hang t p.index b free = some s' ∧ s.Hung s' p b free := by
  have fresh : ∀ {q c}, s.get q = some c → c ≠ b := by
    rintro q c here rfl
    exact tree.used here (by simp [some'])
  cases p with
  | root r i =>
    obtain rfl : Table.node r = t := some.inj parent
    refine ⟨_, rfl, fun q => ?_, rfl, update_self .., fun here => .inl ?_, fun here table => ?_⟩
    · induction q with
      | root r' i' =>
        simp only [get, Place.root.injEq]
        by_cases same : r' = r
        · subst same
          by_cases same' : i' = i <;> simp [same', Place.index]
        · simp [same]
      | entry q j ih =>
        rw [if_neg (by simp)]
        simp only [get, ih]
        by_cases same : q = .root r i
        · subst same
          simp [none]
        · rw [if_neg same]
          cases here : s.get q with
          | none => rfl
          | some c => simp [fresh here]
    · simp [fresh here]
    · simpa [fresh here] using table
  | entry p i =>
    obtain ⟨d, above, rfl⟩ := map_eq_some_iff.mp parent
    obtain ⟨entries, table⟩ := ne_none_iff_exists'.mp (tree.tables above legal.2.1)
    have other := fresh above
    have state : s.hang (.block d) i b free = some { s with
        free
        blocks := update (update s.blocks b .zero) d (.table (update entries i (some b))) } := by
      simp [BlocksData.hang, setEntry, other, table]
    refine ⟨_, state, fun q => ?_, rfl, by simp [update_of_ne other.symm], fun {q c} here => ?_, fun {q c} here => ?_⟩
    · induction q with
      | root r' i' => simp [get]
      | entry q j ih =>
        simp only [get, ih, Place.entry.injEq]
        by_cases same : q = .entry p i
        · subst same
          have wrong : ¬ (Place.entry p i = p ∧ j = i) := fun both => by
            have size := congrArg sizeOf both.1
            simp only [Place.entry.sizeOf_spec] at size
            omega
          rw [if_pos rfl, if_neg wrong, none]
          simp [update_of_ne other.symm]
        · rw [if_neg same]
          cases here : s.get q with
          | none =>
            rw [if_neg]
            · rfl
            · rintro ⟨rfl, _⟩
              rw [here] at above
              simp at above
          | some c =>
            by_cases parent' : c = d
            · subst parent'
              obtain rfl := tree.distinct here above
              by_cases index : j = i
              · simp [index]
              · simp [index, table]
            · rw [if_neg]
              · simp [parent', fresh here]
              · rintro ⟨rfl, _⟩
                rw [here] at above
                exact parent' (some.inj above)
    · by_cases parent' : c = d
      · subst parent'
        obtain rfl := tree.distinct here above
        exact .inr legal.2.1
      · exact .inl (by simp [parent', fresh here])
    · by_cases parent' : c = d
      · subst parent'
        simp
      · simp [parent', fresh here]

end BlocksData

namespace BlocksConfig
variable {cfg : BlocksConfig} {pos pos' : Nat} {p : Place}

/-- The place of the block that holds a position. -/
def place (cfg : BlocksConfig) (pos : Nat) : Option Place :=
  if pos < cfg.directMax then some (.root .direct (pos / cfg.blockSize))
  else if pos < cfg.indirect1Max then
    let q := pos - cfg.directMax
    some (.entry (.root .indirect1 (q / cfg.indirect1BlockExtent)) (q % cfg.indirect1BlockExtent / cfg.blockSize))
  else if pos < cfg.indirect2Max then
    let q := pos - cfg.indirect1Max
    let r := q % cfg.indirect2BlockExtent
    some (.entry (.entry (.root .indirect2 (q / cfg.indirect2BlockExtent)) (r / cfg.indirect1BlockExtent))
      (r % cfg.indirect1BlockExtent / cfg.blockSize))
  else none

/-- Where a level ends, a block ends. This is so unless a limit overflows. -/
structure Aligned (cfg : BlocksConfig) : Prop where
  first : cfg.blockSize ∣ cfg.indirect1Max
  extent : cfg.blockSize ∣ cfg.indirect2BlockExtent
  second : cfg.blockSize ∣ cfg.indirect2Max

/-- The positions that have a place are those below this one. -/
def limit (cfg : BlocksConfig) : Nat := max cfg.directMax (max cfg.indirect1Max cfg.indirect2Max)

theorem place_isSome : (cfg.place pos).isSome ↔ pos < cfg.limit := by
  unfold place limit
  split
  · simp only [isSome_some, true_iff]
    omega
  · split
    · simp only [isSome_some, true_iff]
      omega
    · split
      · simp only [isSome_some, true_iff]
        omega
      · simp only [isSome_none, Bool.false_eq_true, false_iff]
        omega

theorem indirect1BlockExtent_eq : cfg.indirect1BlockExtent = cfg.indirectPerBlock * cfg.blockSize := by
  obtain ⟨_, large, _⟩ := cfg.legal
  have per : cfg.indirectPerBlock ≤ 8192 := by
    unfold indirectPerBlock
    omega
  have product : cfg.indirectPerBlock * cfg.blockSize ≤ 8192 * 32768 := Nat.mul_le_mul per large
  exact mod_eq_of_lt (by omega)

theorem indirect1BlockExtent_pos (cfg : BlocksConfig) : 0 < cfg.indirect1BlockExtent := by
  obtain ⟨small, _⟩ := cfg.legal
  rw [indirect1BlockExtent_eq]
  refine Nat.mul_pos ?_ (by omega)
  unfold indirectPerBlock
  omega

theorem dvd_directMax : cfg.blockSize ∣ cfg.directMax := Nat.dvd_mul_left ..

theorem dvd_extent : cfg.blockSize ∣ cfg.indirect1BlockExtent := by
  rw [indirect1BlockExtent_eq]
  exact Nat.dvd_mul_left ..

theorem legal_inner (cfg : BlocksConfig) (q : Nat) :
    q % cfg.indirect1BlockExtent / cfg.blockSize < cfg.indirectPerBlock := by
  obtain ⟨small, _⟩ := cfg.legal
  have less := mod_lt q cfg.indirect1BlockExtent_pos
  refine Nat.div_lt_of_lt_mul ?_
  rw [Nat.mul_comm, ← indirect1BlockExtent_eq]
  exact less

theorem place_legal (here : cfg.place pos = some p) : p.Legal cfg ∧ p.depth = 0 := by
  obtain ⟨small, _⟩ := cfg.legal
  unfold place at here
  split at here
  · next direct =>
    obtain rfl := some.inj here
    exact ⟨Nat.div_lt_of_lt_mul (by rwa [Nat.mul_comm]), rfl⟩
  · split at here
    · next below =>
      obtain rfl := some.inj here
      refine ⟨⟨?_, Nat.one_pos, cfg.legal_inner _⟩, rfl⟩
      refine Nat.div_lt_of_lt_mul ?_
      have wraps : cfg.indirect1Max ≤ cfg.directMax + cfg.indirect1 * cfg.indirect1BlockExtent := Nat.mod_le _ _
      have order : cfg.indirect1BlockExtent * cfg.indirect1 = cfg.indirect1 * cfg.indirect1BlockExtent :=
        Nat.mul_comm _ _
      show _ < cfg.indirect1BlockExtent * cfg.indirect1
      omega
    · split at here
      · next above below =>
        obtain rfl := some.inj here
        have wraps : cfg.indirect2Max ≤ cfg.indirect1Max + cfg.indirect2 * cfg.indirect2BlockExtent := mod_le _ _
        have order : cfg.indirect2BlockExtent * cfg.indirect2 = cfg.indirect2 * cfg.indirect2BlockExtent :=
          Nat.mul_comm _ _
        have positive : 0 < cfg.indirect2BlockExtent := by
          by_contra none
          have zero : cfg.indirect2BlockExtent = 0 := by omega
          rw [zero, Nat.mul_zero] at wraps
          omega
        refine ⟨⟨⟨?_, Nat.two_pos, ?_⟩, Nat.one_pos, cfg.legal_inner _⟩, rfl⟩
        · refine Nat.div_lt_of_lt_mul ?_
          show _ < cfg.indirect2BlockExtent * cfg.indirect2
          omega
        · refine Nat.div_lt_of_lt_mul ?_
          have less := Nat.mod_lt (pos - cfg.indirect1Max) positive
          have bound : cfg.indirect2BlockExtent ≤ cfg.indirectPerBlock * cfg.indirectPerBlock * cfg.blockSize :=
            mod_le _ _
          have same : cfg.indirect1BlockExtent * cfg.indirectPerBlock =
              cfg.indirectPerBlock * cfg.indirectPerBlock * cfg.blockSize := by
            rw [indirect1BlockExtent_eq, Nat.mul_right_comm]
          omega
      · simp at here

theorem div_extent {b e : Nat} (divides : b ∣ e) (q : Nat) : q / b = q / e * (e / b) + q % e / b := by
  obtain ⟨k, rfl⟩ := divides
  rcases Nat.eq_zero_or_pos b with rfl | positive
  · simp
  · have split := div_add_mod q (b * k)
    calc q / b = (b * (k * (q / (b * k))) + q % (b * k)) / b := by rw [← Nat.mul_assoc, split]
      _ = k * (q / (b * k)) + q % (b * k) / b := mul_add_div positive _ _
      _ = q / (b * k) * (b * k / b) + q % (b * k) / b := by rw [Nat.mul_div_cancel_left k positive, Nat.mul_comm k]

theorem sub_div_block {b e : Nat} (positive : 0 < b) (divides : b ∣ e) (le : e ≤ pos) :
    pos / b = e / b + (pos - e) / b ∧ (pos - e) % b = pos % b := by
  obtain ⟨k, rfl⟩ := divides
  have split : pos = b * k + (pos - b * k) := by omega
  constructor
  · rw [split, Nat.mul_add_div positive, Nat.add_sub_cancel_left, Nat.mul_div_cancel_left k positive]
  · conv_rhs => rw [split]
    rw [mul_add_mod]

theorem div_block (b : Nat) {i : Nat} (low : pos ≤ i) (high : i < pos + (b - pos % b)) : i / b = pos / b := by
  have base := div_add_mod pos b
  refine Nat.div_eq_of_lt_le ?_ ?_
  · rw [Nat.mul_comm]
    omega
  · rw [Nat.add_mul, Nat.one_mul, Nat.mul_comm]
    omega

theorem lt_block {b e : Nat} (positive : 0 < b) (divides : b ∣ e) : pos < e ↔ pos / b < e / b := by
  obtain ⟨k, rfl⟩ := divides
  rw [Nat.mul_div_cancel_left k positive, Nat.div_lt_iff_lt_mul positive, Nat.mul_comm]

theorem div_extent_block {b e : Nat} (positive : 0 < b) (divides : b ∣ e) (q : Nat) :
    q / e = q / b / (e / b) ∧ q % e / b = q / b % (e / b) := by
  obtain ⟨k, rfl⟩ := divides
  rw [Nat.mul_div_cancel_left k positive, Nat.div_div_eq_div_mul, Nat.mod_mul_right_div_self]
  exact ⟨rfl, rfl⟩

theorem Aligned.place_congr (aligned : cfg.Aligned) (same : pos / cfg.blockSize = pos' / cfg.blockSize) :
    cfg.place pos = cfg.place pos' := by
  obtain ⟨small, _⟩ := cfg.legal
  have positive : 0 < cfg.blockSize := by omega
  have below : ∀ {e}, cfg.blockSize ∣ e → (pos < e ↔ pos' < e) := fun divides => by
    rw [lt_block positive divides, lt_block positive divides, same]
  have after : ∀ {e}, cfg.blockSize ∣ e → (pos - e) / cfg.blockSize = (pos' - e) / cfg.blockSize := by
    intro e divides
    by_cases le : pos < e
    · have le' := (below divides).mp le
      rw [Nat.sub_eq_zero_of_le le.le, Nat.sub_eq_zero_of_le le'.le]
    · have le' := fun less => le ((below divides).mpr less)
      have first := (sub_div_block positive divides (Nat.le_of_not_lt le)).1
      have second := (sub_div_block positive divides (Nat.le_of_not_lt le')).1
      omega
  have parts : ∀ {q q' e}, cfg.blockSize ∣ e → q / cfg.blockSize = q' / cfg.blockSize →
      q / e = q' / e ∧ q % e / cfg.blockSize = q' % e / cfg.blockSize := by
    intro q q' e divides equal
    rw [(div_extent_block positive divides q).1, (div_extent_block positive divides q').1,
      (div_extent_block positive divides q).2, (div_extent_block positive divides q').2, equal]
    exact ⟨rfl, rfl⟩
  obtain ⟨one, two⟩ := parts dvd_extent (after dvd_directMax)
  obtain ⟨three, four⟩ := parts aligned.extent (after aligned.first)
  obtain ⟨five, six⟩ := parts dvd_extent four
  unfold place
  simp only [below dvd_directMax, below aligned.first, below aligned.second, same, one, two, three, five, six]

theorem Aligned.place_inj (aligned : cfg.Aligned) (here : cfg.place pos = some p) (here' : cfg.place pos' = some p) :
    pos / cfg.blockSize = pos' / cfg.blockSize := by
  obtain ⟨small, _⟩ := cfg.legal
  have positive : 0 < cfg.blockSize := by omega
  unfold place at here here'
  split at here
  · obtain rfl := some.inj here
    split at here'
    · simpa using here'.symm
    · split at here'
      · simp at here'
      · split at here' <;> simp at here'
  · split at here
    · next above _ =>
      obtain rfl := some.inj here
      split at here'
      · simp at here'
      · split at here'
        · next above' _ =>
          simp only [some.injEq, Place.entry.injEq, Place.root.injEq, true_and] at here'
          rw [(sub_div_block positive dvd_directMax (Nat.le_of_not_lt above)).1,
            (sub_div_block positive dvd_directMax (Nat.le_of_not_lt above')).1,
            div_extent dvd_extent (pos - cfg.directMax), div_extent dvd_extent (pos' - cfg.directMax), here'.1, here'.2]
        · split at here' <;> simp at here'
    · split at here
      · next above _ =>
        obtain rfl := some.inj here
        split at here'
        · simp at here'
        · split at here'
          · simp at here'
          · split at here'
            · next above' _ =>
              simp only [some.injEq, Place.entry.injEq, Place.root.injEq, true_and] at here'
              rw [(sub_div_block positive aligned.first (Nat.le_of_not_lt above)).1,
                (sub_div_block positive aligned.first (Nat.le_of_not_lt above')).1,
                div_extent aligned.extent (pos - cfg.indirect1Max), div_extent aligned.extent (pos' - cfg.indirect1Max),
                div_extent dvd_extent ((pos - cfg.indirect1Max) % cfg.indirect2BlockExtent),
                div_extent dvd_extent ((pos' - cfg.indirect1Max) % cfg.indirect2BlockExtent),
                here'.1.1, here'.1.2, here'.2]
            · simp at here'
      · simp at here

end BlocksConfig

end Ecos.Ramfs
