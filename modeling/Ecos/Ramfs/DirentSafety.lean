import Ecos.Ramfs.DirentNames

namespace Ecos.Ramfs.Dir
open List Option Nat
variable {N : Type} {cfg : DirentConfig} {d d' : Dir N} {fuel n m pos p q k : Nat} {name : List UInt8} {node : N}
  {first : Bool} {chain rest : List Nat} {dp : Option Nat}

theorem addFragments_mono (run : addFragments cfg fuel node n d pos dp name = some d') (le : fuel ≤ m) :
    addFragments cfg m node n d pos dp name = some d' := by
  induction n generalizing d pos dp name with
  | zero => simp [addFragments] at run
  | succ n ih =>
    rw [addFragments_succ] at run ⊢
    obtain ⟨r, found, run⟩ := bind_eq_some_iff.mp run
    refine bind_eq_some_iff.mpr ⟨r, findFree_mono found le, ?_⟩
    split at run
    · next done => rw [if_pos done, run]
    · next more =>
      rw [if_neg more]
      exact ih run

theorem addFragments_ends (cfg : DirentConfig) (node : N) (pos : Nat) (dp : Option Nat) (enough : name.length ≤ n)
    (nonempty : name ≠ []) (short : name.length ≤ 255)
    (bound : ∃ b, ∀ q, b ≤ q → (d.slot q).inuse = false) (multiple : cfg.sizeofDirent ∣ pos)
    (used : ∀ q, dp = some q → (d.slot q).inuse = true) :
    ∃ fuel, addFragments cfg fuel node n d pos dp name ≠ none := by
  have positive := cfg.nameSize_pos
  have size := cfg.sizeofDirent_pos
  induction n generalizing d pos dp name with
  | zero =>
    have length := length_pos_iff.mpr nonempty
    omega
  | succ n ih =>
    obtain ⟨b, behind⟩ := bound
    obtain ⟨fuel, found⟩ := findFree_ends cfg d pos b (fun q far => behind q (by
      have le := Nat.le_mul_of_pos_right b size
      omega)) multiple
    obtain ⟨⟨d₁, p⟩, found⟩ := ne_none_iff_exists'.mp found
    obtain ⟨grown, free, _, _, divides⟩ := findFree_spec found
    have apart : dp ≠ some p := fun same => by
      have inuse := used p same
      rw [free] at inuse
      simp at inuse
    obtain ⟨_, _, others, fragment, _, prev⟩ := link_spec cfg d₁ node apart short
    rw [grown.slot] at others prev
    by_cases done : name.drop cfg.nameSize = []
    · refine ⟨fuel, ?_⟩
      rw [addFragments_succ, found]
      simp [done]
    · obtain ⟨fuel', more⟩ := @ih (link cfg d₁ p dp name node) (name.drop cfg.nameSize) (p + cfg.sizeofDirent) (some p)
        (by rw [length_drop]; omega) done (by rw [length_drop]; omega) ⟨max b (p + 1), fun q far => by
          by_cases same : dp = some q
          · rw [prev q same]
            exact behind q (by omega)
          · rw [others q (by omega) same]
            exact behind q (by omega)⟩ (Nat.dvd_add (divides multiple) (Nat.dvd_refl _)) (by
          rintro q ⟨⟩
          exact fragment.inuse)
      obtain ⟨d', more⟩ := ne_none_iff_exists'.mp more
      refine ⟨max fuel fuel', ?_⟩
      rw [addFragments_succ, findFree_mono found (le_max_left ..)]
      simp only [bind_some, if_neg done]
      rw [addFragments_mono more (le_max_right ..)]
      simp

/-- A name in a directory, with its node and the positions of its fragments. -/
structure Entry (N : Type) where
  name : List UInt8
  node : N
  chain : List Nat

/-- The entries in use are the fragments of the names. -/
structure Inv (cfg : DirentConfig) (d : Dir N) (entries : List (Entry N)) : Prop where
  chains : ∀ e ∈ entries, Chain cfg d.slot e.node true e.name e.chain
  names : (entries.map Entry.name).Nodup
  sizes : ∀ e ∈ entries, e.name ≠ [] ∧ e.name.length ≤ 255
  once : (entries.flatMap Entry.chain).Nodup
  used : ∀ p, (d.slot p).inuse = true → p ∈ entries.flatMap Entry.chain
  inside : ∀ p ∈ entries.flatMap Entry.chain, p + cfg.sizeofDirent ≤ d.size ∧ cfg.sizeofDirent ∣ p ∧
    cfg.sizeofDirent ≤ d.room cfg p
  whole : cfg.sizeofDirent ∣ d.size
  pages : ∀ p, p < d.size → 0 < d.room cfg p

variable {entries : List (Entry N)} {e : Entry N}

theorem Inv.empty : Inv cfg (empty : Dir N) [] where
  chains e mem := by simp at mem
  names := by simp
  sizes e mem := by simp at mem
  once := by simp
  used p inuse := by simp [Dir.empty] at inuse
  inside p mem := by simp at mem
  whole := Nat.dvd_zero _
  pages p below := by simp [Dir.empty] at below

section
variable (inv : Inv cfg d entries)
include inv

theorem Inv.add (run : d.addDirentry cfg fuel name node = some d') (nonempty : name ≠ [])
    (short : name.length ≤ 255) (absent : name ∉ entries.map Entry.name) (clean : d.CleanFor cfg name) :
    ∃ chain, Inv cfg d' (⟨name, node, chain⟩ :: entries) := by
  rw [addDirentry, if_neg nonempty] at run
  obtain ⟨p, rest, held, placed, _⟩ := addFragments_spec run nonempty short (Nat.dvd_zero _) (by simp) clean
  have fresh : ∀ x ∈ entries.flatMap Entry.chain, x ∉ p :: rest := by
    intro x mem new
    obtain ⟨e, inE, inChain⟩ := mem_flatMap.mp mem
    have inuse := (inv.chains e inE).used x inChain
    rw [placed.free x new] at inuse
    simp at inuse
  have kept : ∀ x, x ∉ p :: rest → d'.slot x = d.slot x := fun x notIn => placed.others x notIn (by simp)
  obtain ⟨last, inLast, size⟩ := placed.size
  refine ⟨p :: rest, ?_, ?_, ?_, ?_, ?_, ?_, ?_, ?_⟩
  · intro e mem
    rcases mem_cons.mp mem with rfl | old
    · exact held
    · exact (inv.chains e old).congr fun q inChain => kept q (fresh q (mem_flatMap.mpr ⟨e, old, inChain⟩))
  · exact nodup_cons.mpr ⟨absent, inv.names⟩
  · intro e mem
    rcases mem_cons.mp mem with rfl | old
    · exact ⟨nonempty, short⟩
    · exact inv.sizes e old
  · rw [flatMap_cons]
    refine nodup_append.mpr ⟨placed.nodup, inv.once, fun x new y old same => ?_⟩
    exact fresh y old (same ▸ new)
  · intro x inuse
    rw [flatMap_cons]
    by_cases new : x ∈ p :: rest
    · exact mem_append_left _ new
    · rw [kept x new] at inuse
      exact mem_append_right _ (inv.used x inuse)
  · intro x mem
    rw [flatMap_cons] at mem
    rcases mem_append.mp mem with new | old
    · exact ⟨placed.inside x new, placed.multiple x new, placed.fits x new⟩
    · obtain ⟨below, divides, fits⟩ := inv.inside x old
      exact ⟨by omega, divides, fits.trans (placed.room x)⟩
  · rw [size]
    rcases le_total d.size (last + cfg.sizeofDirent) with le | le
    · rw [max_eq_right le]
      exact Nat.dvd_add (placed.multiple last inLast) (Nat.dvd_refl _)
    · rw [max_eq_left le]
      exact inv.whole
  · intro x below
    by_cases near : x < last + cfg.sizeofDirent
    · exact Paging.room_pos cfg.sizeofDirent_pos (placed.fits last inLast) near
    · exact lt_of_lt_of_le (inv.pages x (by omega)) (placed.room x)

theorem Inv.head (inuse : (d.slot p).inuse = true) (isFirst : (d.slot p).first = true) :
    ∃ e ∈ entries, ∃ rest, e.chain = p :: rest := by
  obtain ⟨e, mem, inChain⟩ := mem_flatMap.mp (inv.used p inuse)
  have held := inv.chains e mem
  cases chain : e.chain with
  | nil => simp [chain] at inChain
  | cons h rest =>
    rw [chain] at held inChain
    rcases mem_cons.mp inChain with rfl | later
    · exact ⟨e, mem, rest, chain⟩
    · rw [held.tail_first p later] at isFirst
      simp at isFirst

theorem Inv.chain_head (mem : e ∈ entries) (chain : e.chain = p :: rest) :
    Fragment cfg (d.slot p) e.node true e.name ∧ p + cfg.sizeofDirent ≤ d.size ∧ cfg.sizeofDirent ∣ p ∧
      cfg.sizeofDirent ≤ d.room cfg p ∧ e.chain.length ≤ 255 := by
  have held := inv.chains e mem
  have listed : p ∈ entries.flatMap Entry.chain := mem_flatMap.mpr ⟨e, mem, by simp [chain]⟩
  have length := held.length_le (inv.sizes e mem).1
  have short := (inv.sizes e mem).2
  obtain ⟨inside, divides, fits⟩ := inv.inside p listed
  rw [chain] at held
  exact ⟨held.head, inside, divides, fits, by omega⟩

theorem Inv.head_inj {e' : Entry N} {rest' : List Nat} (mem : e ∈ entries)
    (mem' : e' ∈ entries) (chain : e.chain = p :: rest) (chain' : e'.chain = p :: rest') : e = e' := by
  by_contra other
  obtain ⟨l, r, rfl⟩ := append_of_mem mem
  have once := inv.once
  simp only [flatMap_append, flatMap_cons] at once
  have apart : ∀ x ∈ e.chain, ∀ f ∈ l ++ r, x ∉ f.chain := by
    intro x inE f inF inChain
    obtain ⟨_, right, left⟩ := nodup_append.mp once
    obtain ⟨_, _, right'⟩ := nodup_append.mp right
    rcases mem_append.mp inF with early | late
    · exact left x (mem_flatMap.mpr ⟨f, early, inChain⟩) x (mem_append_left _ inE) rfl
    · exact right' x inE x (mem_flatMap.mpr ⟨f, late, inChain⟩) rfl
  have elsewhere : e' ∈ l ++ r := by
    simp only [mem_append, mem_cons] at mem' ⊢
    rcases mem' with early | rfl | late
    · exact .inl early
    · exact absurd rfl other
    · exact .inr late
  exact apart p (by simp [chain]) e' elsewhere (by simp [chain'])

theorem Inv.not_skipped (mem : e ∈ entries) (chain : e.chain = p :: rest) :
    ¬ (d.room cfg p < cfg.sizeofDirent ∨ (d.slot p).inuse = false ∨ (d.slot p).first = false) := by
  obtain ⟨fragment, _, _, fits, _⟩ := inv.chain_head mem chain
  rw [fragment.inuse, fragment.first]
  simpa using fits

end

theorem lt_of_multiple {sz a b : Nat} (divides : sz ∣ a) (divides' : sz ∣ b) (less : a < b + sz) : a ≤ b := by
  obtain ⟨i, rfl⟩ := divides
  obtain ⟨j, rfl⟩ := divides'
  rw [← mul_succ] at less
  exact mul_le_mul_left sz (Nat.le_of_lt_succ (Nat.lt_of_mul_lt_mul_left less))

theorem Inv.findFrom (inv : Inv cfg d entries) (name : List UInt8) (end' : pos + k * cfg.sizeofDirent = d.size) (enough : k + 256 ≤ fuel)
    (multiple : cfg.sizeofDirent ∣ pos) :
    ∃ r, d.findFrom cfg name fuel pos = some r ∧
      (∀ p, r = some p → ∃ e ∈ entries, e.name = name ∧ ∃ rest, e.chain = p :: rest) ∧
      (r = none → ∀ e ∈ entries, e.name = name → ∀ p rest, e.chain = p :: rest → p < pos) := by
  have size := cfg.sizeofDirent_pos
  induction k generalizing pos fuel with
  | zero =>
    obtain ⟨fuel, rfl⟩ : ∃ k, fuel = k + 1 := ⟨fuel - 1, by omega⟩
    refine ⟨none, ?_, by simp, fun _ e mem _ p rest chain => ?_⟩
    · simp only [Dir.findFrom]
      rw [if_neg (by omega)]
    · have inside := (inv.chain_head mem chain).2.1
      omega
  | succ k ih =>
    obtain ⟨fuel, rfl⟩ : ∃ k, fuel = k + 1 := ⟨fuel - 1, by omega⟩
    rw [succ_mul] at end'
    have below : pos < d.size := by omega
    have room := inv.pages pos below
    obtain ⟨r, later, found, absent⟩ := @ih fuel (pos + cfg.sizeofDirent) (by omega) (by omega)
      (Nat.dvd_add multiple (Nat.dvd_refl _))
    -- what is absent from the later positions can only be here
    have here : r = none → ∀ e ∈ entries, e.name = name → ∀ p rest, e.chain = p :: rest → p < pos ∨ p = pos := by
      intro none e mem same p rest chain
      have less := absent none e mem same p rest chain
      have le := lt_of_multiple (inv.chain_head mem chain).2.2.1 multiple less
      omega
    simp only [Dir.findFrom, if_pos below, if_neg (Nat.pos_iff_ne_zero.mp room)]
    split
    · next skipped =>
      refine ⟨r, later, found, fun none e mem same p rest chain => ?_⟩
      rcases here none e mem same p rest chain with less | rfl
      · exact less
      · exact absurd skipped (inv.not_skipped mem chain)
    · next shown =>
      rw [not_or, not_or, Bool.not_eq_false, Bool.not_eq_false] at shown
      obtain ⟨e₀, member₀, rest₀, chain₀⟩ := inv.head shown.2.1 shown.2.2
      obtain ⟨fragment, _, _, _, long⟩ := inv.chain_head member₀ chain₀
      have held := inv.chains e₀ member₀
      rw [chain₀] at held long
      have pass : e₀.name ≠ name → (r = none → ∀ e ∈ entries, e.name = name → ∀ p rest, e.chain = p :: rest → p < pos) := by
        intro other none e mem same p rest chain
        rcases here none e mem same p rest chain with less | rfl
        · exact less
        · exact absurd (inv.head_inj mem member₀ chain chain₀ ▸ same) other
      split
      · next length =>
        rw [fragment.namelen] at length
        have compared := held.compare fuel length.symm (by omega)
        rw [compared]
        by_cases same : name = e₀.name
        · refine ⟨some pos, by simp [same], ?_, by simp⟩
          rintro _ ⟨⟩
          exact ⟨e₀, member₀, same.symm, rest₀, chain₀⟩
        · refine ⟨r, by simp [same, later], found, pass fun equal => same equal.symm⟩
      · next length =>
        rw [fragment.namelen] at length
        exact ⟨r, later, found, pass fun equal => length (by rw [equal])⟩

theorem Inv.size_eq (inv : Inv cfg d entries) : ∃ k, 0 + k * cfg.sizeofDirent = d.size := by
  obtain ⟨k, eq⟩ := inv.whole
  exact ⟨k, by rw [eq, Nat.zero_add, Nat.mul_comm]⟩

theorem Inv.findDirentry (inv : Inv cfg d entries) (name : List UInt8) : ∃ n, ∀ fuel, n ≤ fuel → ∃ r, d.findDirentry cfg fuel name = some r ∧
    (∀ p, r = some p → ∃ e ∈ entries, e.name = name ∧ ∃ rest, e.chain = p :: rest) ∧
    (r = none → name ∉ entries.map Entry.name) := by
  obtain ⟨k, end'⟩ := inv.size_eq
  refine ⟨k + 256, fun fuel enough => ?_⟩
  obtain ⟨r, result, found, absent⟩ := inv.findFrom name end' enough (Nat.dvd_zero _)
  refine ⟨r, result, found, fun none mem => ?_⟩
  obtain ⟨e, inE, same⟩ := mem_map.mp mem
  have held := inv.chains e inE
  cases chain : e.chain with
  | nil =>
    rw [chain] at held
    cases held
  | cons p rest => exact absurd (absent none e inE same p rest chain) (not_lt_zero p)

end Ecos.Ramfs.Dir
