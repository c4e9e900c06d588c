import Ecos.Ramfs.DirentChains

namespace Ecos.Ramfs.Dir
open Function Option Nat List
variable {N : Type} {cfg : DirentConfig} {d d' : Dir N} {slot slot' : Nat → Dirent N} {fuel n m pos p q : Nat}
  {name target : List UInt8} {node : N} {first : Bool} {chain rest : List Nat} {dp : Option Nat}

/-- An entry holds the first bytes of what is left of a name. -/
structure Fragment (cfg : DirentConfig) (entry : Dirent N) (node : N) (first : Bool) (name : List UInt8) : Prop where
  node : entry.node = some node
  inuse : entry.inuse = true
  first : entry.first = first
  namelen : entry.namelen = name.length
  fraglen : entry.fraglen = (name.take cfg.nameSize).length
  bytes : window entry.name 0 entry.fraglen = name.take cfg.nameSize

/-- The entries at these positions hold a name. -/
inductive Chain (cfg : DirentConfig) (slot : Nat → Dirent N) (node : N) : Bool → List UInt8 → List Nat → Prop
  | last {first : Bool} {name : List UInt8} {p : Nat} (fragment : Fragment cfg (slot p) node first name)
      (short : name.length ≤ cfg.nameSize) (ends : (slot p).last = true) : Chain cfg slot node first name [p]
  | more {first : Bool} {name : List UInt8} {p q : Nat} {rest : List Nat}
      (fragment : Fragment cfg (slot p) node first name) (long : cfg.nameSize < name.length) (goes : (slot p).last = false)
      (next : (slot p).next = q)
      (tail : Chain cfg slot node false (name.drop cfg.nameSize) (q :: rest)) :
      Chain cfg slot node first name (p :: q :: rest)

theorem Chain.head (held : Chain cfg slot node first name (p :: rest)) : Fragment cfg (slot p) node first name := by
  cases held with
  | last fragment => exact fragment
  | more fragment => exact fragment

theorem Chain.congr (held : Chain cfg slot node first name chain) (same : ∀ q ∈ chain, slot' q = slot q) :
    Chain cfg slot' node first name chain := by
  induction held with
  | last fragment short ends =>
    have here := same _ (mem_cons_self ..)
    exact .last (here ▸ fragment) short (here ▸ ends)
  | more fragment long goes next tail ih =>
    have here := same _ (mem_cons_self ..)
    exact .more (here ▸ fragment) long (here ▸ goes) (here ▸ next) (ih fun q mem => same q (mem_cons_of_mem _ mem))

theorem Chain.used (held : Chain cfg slot node first name chain) : ∀ q ∈ chain, (slot q).inuse = true := by
  induction held with
  | last fragment => simpa using fragment.inuse
  | more fragment _ _ _ _ ih =>
    intro q mem
    rcases mem_cons.mp mem with rfl | later
    · exact fragment.inuse
    · exact ih q later

theorem Chain.tail_first (held : Chain cfg slot node first name (p :: rest)) : ∀ q ∈ rest, (slot q).first = false := by
  generalize whole : p :: rest = chain at held
  induction held generalizing p rest with
  | last =>
    obtain ⟨rfl, rfl⟩ := cons.inj whole
    simp
  | more fragment _ _ _ tail ih =>
    obtain ⟨rfl, rfl⟩ := cons.inj whole
    intro q mem
    rcases mem_cons.mp mem with rfl | later
    · exact tail.head.first
    · exact ih rfl q later

theorem Chain.length_eq (held : Chain cfg slot node first name chain) (nonempty : name ≠ []) :
    chain.length = (name.length - 1) / cfg.nameSize + 1 := by
  have positive := cfg.nameSize_pos
  induction held with
  | last fragment short =>
    rw [div_eq_of_lt (by omega)]
    rfl
  | more fragment long goes next tail ih =>
    have dropped := ih (by
      rw [ne_eq, drop_eq_nil_iff]
      omega)
    rw [length_cons, dropped, length_drop, ← add_div_right _ positive]
    congr 2
    omega

theorem Chain.length_le (held : Chain cfg slot node first name chain) (nonempty : name ≠ []) :
    chain.length ≤ name.length := by
  have length := length_pos_iff.mpr nonempty
  have le := div_le_self (name.length - 1) cfg.nameSize
  rw [held.length_eq nonempty]
  omega

theorem Chain.compare (held : Chain cfg d.slot node first name (p :: rest)) (fuel : Nat) (length : target.length = name.length)
    (enough : (p :: rest).length ≤ fuel) : d.compare fuel p target = some (decide (target = name)) := by
  generalize whole : p :: rest = chain at held enough
  induction held generalizing p rest target fuel with
  | @last first name p' fragment short ends =>
    obtain ⟨rfl, rfl⟩ := cons.inj whole
    obtain ⟨fuel, rfl⟩ : ∃ k, fuel = k + 1 := ⟨fuel - 1, by simp at enough; omega⟩
    have all : name.take cfg.nameSize = name := take_of_length_le short
    have fraglen : min target.length (d.slot p).fraglen = target.length := by
      rw [fragment.fraglen, all]
      omega
    have bytes := fragment.bytes
    rw [fragment.fraglen, all, ← length] at bytes
    simp only [Dir.compare, fraglen, take_length, bytes, ends, if_true]
    by_cases same : target = name <;> simp [same]
  | @more first name p' q rest' fragment long goes next tail ih =>
    obtain ⟨rfl, rfl⟩ := cons.inj whole
    obtain ⟨fuel, rfl⟩ : ∃ k, fuel = k + 1 := ⟨fuel - 1, by simp at enough; omega⟩
    have fraglen : (d.slot p).fraglen = cfg.nameSize := by
      rw [fragment.fraglen, length_take]
      omega
    have bytes := fragment.bytes
    have least : min target.length cfg.nameSize = cfg.nameSize := by omega
    rw [fraglen] at bytes
    have rest := @ih q (target.drop cfg.nameSize) rest' fuel
      (by rw [length_drop, length_drop, length]) rfl (by simpa using enough)
    simp only [Dir.compare, fraglen, least, bytes, goes, next, rest, Bool.false_eq_true, if_false]
    by_cases same : target.take cfg.nameSize = name.take cfg.nameSize
    · rw [if_neg (not_not.mpr same)]
      congr 2
      rw [eq_iff_iff]
      constructor
      · intro tails
        rw [← take_append_drop cfg.nameSize target, same, tails, take_append_drop]
      · rintro rfl
        rfl
    · rw [if_pos same]
      congr 1
      rw [eq_comm, decide_eq_false_iff_not]
      rintro rfl
      exact same rfl

theorem Chain.copyName (held : Chain cfg d.slot node first name (p :: rest)) (enough : (p :: rest).length ≤ fuel) :
    d.copyName fuel p n = some (name.take n) := by
  generalize whole : p :: rest = chain at held enough
  induction held generalizing p rest n fuel with
  | @last first name p' fragment short ends =>
    obtain ⟨rfl, rfl⟩ := cons.inj whole
    obtain ⟨fuel, rfl⟩ : ∃ k, fuel = k + 1 := ⟨fuel - 1, by simp at enough; omega⟩
    have all : name.take cfg.nameSize = name := take_of_length_le short
    have bytes : window (d.slot p).name 0 (min (d.slot p).fraglen n) = name.take n := by
      rw [← window_take, fragment.bytes, all]
    simp [Dir.copyName, ends, bytes]
  | @more first name p' q rest' fragment long goes next tail ih =>
    obtain ⟨rfl, rfl⟩ := cons.inj whole
    obtain ⟨fuel, rfl⟩ : ∃ k, fuel = k + 1 := ⟨fuel - 1, by simp at enough; omega⟩
    have fraglen : (d.slot p).fraglen = cfg.nameSize := by
      rw [fragment.fraglen, length_take]
      omega
    have bytes : window (d.slot p).name 0 (min cfg.nameSize n) = name.take (min n cfg.nameSize) := by
      rw [← window_take, ← fraglen, fragment.bytes, take_take, fraglen]
    have later := @ih fuel (n - cfg.nameSize) q rest' rfl (by simpa using enough)
    simp only [Dir.copyName, fraglen, bytes, goes, next, Bool.false_eq_true, false_or]
    by_cases full : n ≤ cfg.nameSize
    · rw [if_pos (by omega), min_eq_left full]
    · have room : n - min cfg.nameSize n = n - cfg.nameSize := by omega
      rw [if_neg (by omega), room, later, map_some, min_eq_right (by omega), ← take_add]
      congr 2
      omega

theorem fill_slot (cfg : DirentConfig) (d : Dir N) (pos : Nat) (first : Bool) (name : List UInt8) (node : N) :
    (d.fill cfg pos first name node).size = d.size ∧ (d.fill cfg pos first name node).datasize = d.datasize ∧
      (∀ q, q ≠ pos → (d.fill cfg pos first name node).slot q = d.slot q) ∧
      ((d.fill cfg pos first name node).slot pos).last = (d.slot pos).last :=
  ⟨rfl, rfl, fun _ other => update_of_ne other .., by simp [fill]⟩

theorem fill_fragment (cfg : DirentConfig) (d : Dir N) (pos : Nat) (first : Bool) (node : N) (short : name.length ≤ 255) :
    Fragment cfg ((d.fill cfg pos first name node).slot pos) node first name := by
  have length : (name.take cfg.nameSize).length ≤ 255 := by
    rw [length_take]
    omega
  refine ⟨?_, ?_, ?_, ?_, ?_, ?_⟩
  · simp [fill]
  · simp [fill]
  · simp [fill]
  · simp only [fill, update_self]
    omega
  · simp only [fill, update_self]
    omega
  · simp only [fill, update_self]
    rw [mod_eq_of_lt (by omega), window_overwrite]

theorem Fragment.update {entry : Dirent N} (fragment : Fragment cfg entry node first name) (next : Nat) (last : Bool) :
    Fragment cfg { entry with next := next, last := last } node first name :=
  ⟨fragment.node, fragment.inuse, fragment.first, fragment.namelen, fragment.fraglen, fragment.bytes⟩

theorem Clean.congr {e : Dir N} {k : Nat} (clean : e.Clean cfg k pos) (same : d.datasize = e.datasize)
    (slots : ∀ q, pos ≤ q → d.slot q = e.slot q) : d.Clean cfg k pos := by
  induction k generalizing d e pos with
  | zero => trivial
  | succ k ih =>
    intro fuel d' p found
    have later := (findFree_spec found).2.2.2.1
    obtain ⟨clear, rest⟩ := clean fuel _ p (findFree_congr same (fun q low => by rw [slots q low]) found)
    rw [slots p later]
    exact ⟨clear, ih rest rfl fun q low => slots q (by omega)⟩

/-- Where a chain has been put: in free entries, and nothing else has changed but `dp->next`. -/
structure Placed (cfg : DirentConfig) (d d' : Dir N) (pos : Nat) (dp : Option Nat) (chain : List Nat) : Prop where
  nodup : chain.Nodup
  free : ∀ x ∈ chain, (d.slot x).inuse = false
  multiple : ∀ x ∈ chain, cfg.sizeofDirent ∣ x
  fits : ∀ x ∈ chain, cfg.sizeofDirent ≤ d'.room cfg x
  inside : ∀ x ∈ chain, x + cfg.sizeofDirent ≤ d'.size
  later : ∀ x ∈ chain, pos ≤ x
  others : ∀ x, x ∉ chain → dp ≠ some x → d'.slot x = d.slot x
  room : ∀ q, d.room cfg q ≤ d'.room cfg q
  size : ∃ x ∈ chain, d'.size = max d.size (x + cfg.sizeofDirent)

/-- The entries after one fragment has been put in. -/
def link (cfg : DirentConfig) (d : Dir N) (pos : Nat) (dp : Option Nat) (name : List UInt8) (node : N) : Dir N :=
  match dp with
  | none => d.fill cfg pos dp.isNone name node
  | some q => (d.fill cfg pos dp.isNone name node).setNext q pos

theorem addFragments_succ : addFragments cfg fuel node (n + 1) d pos dp name = (findFree cfg fuel d pos).bind fun r =>
      if name.drop cfg.nameSize = [] then
        some { (link cfg r.1 r.2 dp name node).setLast r.2 with
          size := max (link cfg r.1 r.2 dp name node).size (r.2 + cfg.sizeofDirent) }
      else addFragments cfg fuel node n (link cfg r.1 r.2 dp name node) (r.2 + cfg.sizeofDirent) (some r.2)
        (name.drop cfg.nameSize) := by
  cases dp <;> rfl

theorem link_slot (cfg : DirentConfig) (d : Dir N) (name : List UInt8) (node : N) (apart : dp ≠ some p) :
    (link cfg d p dp name node).slot p = (d.fill cfg p dp.isNone name node).slot p := by
  cases dp with
  | none => rfl
  | some q => exact update_of_ne (fun same => apart (by rw [same])) ..

theorem link_others (cfg : DirentConfig) (d : Dir N) (name : List UInt8) (node : N) (other : q ≠ p) (away : dp ≠ some q) :
    (link cfg d p dp name node).slot q = d.slot q := by
  have kept := (fill_slot cfg d p dp.isNone name node).2.2.1 q other
  cases dp with
  | none => exact kept
  | some x => exact (update_of_ne (fun same => away (by rw [same])) ..).trans kept

theorem link_prev (cfg : DirentConfig) (d : Dir N) (name : List UInt8) (node : N) (apart : q ≠ p) :
    (link cfg d p (some q) name node).slot q = { d.slot q with next := p } := by
  have value : (link cfg d p (some q) name node).slot q =
      { (d.fill cfg p false name node).slot q with next := p } := update_self ..
  rw [value, show (d.fill cfg p false name node).slot q = d.slot q from update_of_ne apart ..]

theorem link_size (cfg : DirentConfig) (d : Dir N) (p : Nat) (dp : Option Nat) (name : List UInt8) (node : N) :
    (link cfg d p dp name node).size = d.size ∧ (link cfg d p dp name node).datasize = d.datasize := by
  cases dp <;> exact ⟨rfl, rfl⟩

theorem link_spec (cfg : DirentConfig) (d : Dir N) (node : N) (apart : dp ≠ some p) (short : name.length ≤ 255) :
    (link cfg d p dp name node).size = d.size ∧ (link cfg d p dp name node).datasize = d.datasize ∧
      (∀ q, q ≠ p → dp ≠ some q → (link cfg d p dp name node).slot q = d.slot q) ∧
      Fragment cfg ((link cfg d p dp name node).slot p) node dp.isNone name ∧
      ((link cfg d p dp name node).slot p).last = (d.slot p).last ∧
      ∀ q, dp = some q → (link cfg d p dp name node).slot q = { d.slot q with next := p } := by
  obtain ⟨size, datasize⟩ := link_size cfg d p dp name node
  rw [link_slot cfg d name node apart]
  refine ⟨size, datasize, fun q => link_others cfg d name node, fill_fragment cfg d p dp.isNone node short,
    (fill_slot cfg d p dp.isNone name node).2.2.2, ?_⟩
  rintro q rfl
  exact link_prev cfg d name node fun same => apart (by rw [same])

/-- What the loop of `add_direntry` does. -/
theorem addFragments_spec (run : addFragments cfg fuel node n d pos dp name = some d') (nonempty : name ≠ [])
    (short : name.length ≤ 255) (multiple : cfg.sizeofDirent ∣ pos)
    (before : ∀ q, dp = some q → (d.slot q).inuse = true ∧ q < pos)
    (clean : d.Clean cfg ((name.length - 1) / cfg.nameSize) pos) :
    ∃ p rest, Chain cfg d'.slot node dp.isNone name (p :: rest) ∧ Placed cfg d d' pos dp (p :: rest) ∧
      ∀ q, dp = some q → d'.slot q = { d.slot q with next := p } := by
  have positive := cfg.nameSize_pos
  have size := cfg.sizeofDirent_pos
  induction n generalizing d pos dp name with
  | zero => simp [addFragments] at run
  | succ n ih =>
    rw [addFragments_succ] at run
    obtain ⟨⟨d₁, p⟩, found, run⟩ := bind_eq_some_iff.mp run
    obtain ⟨grown, free, fits, low, divides⟩ := findFree_spec found
    have apart : dp ≠ some p := fun same => by
      have used := (before p same).1
      rw [free] at used
      simp at used
    obtain ⟨sizeL, datasizeL, othersL, fragment, lastL, prevL⟩ := link_spec cfg d₁ node apart short
    rw [grown.slot] at othersL lastL prevL
    rw [grown.size] at sizeL
    have roomL : ∀ x, (link cfg d₁ p dp name node).room cfg x = d₁.room cfg x := fun x => by
      rw [Dir.room, Dir.room, datasizeL]
    generalize link cfg d₁ p dp name node = d₂ at run sizeL datasizeL othersL fragment lastL prevL roomL
    split at run
    · next done =>
      have short' : name.length ≤ cfg.nameSize := drop_eq_nil_iff.mp done
      obtain rfl := some.inj run
      have others' : ∀ x, x ≠ p → (d₂.setLast p).slot x = d₂.slot x := fun x other => update_of_ne other ..
      have here : (d₂.setLast p).slot p = { d₂.slot p with last := true } := update_self ..
      refine ⟨p, [], .last ?_ short' ?_, ?_, fun q prev => ?_⟩
      · rw [here]
        exact fragment.update _ true
      · rw [here]
      · refine ⟨by simp, by simpa using free, by simpa using divides multiple, ?_, ?_, by simpa using low, ?_, ?_, ?_⟩
        · intro x mem
          obtain rfl := mem_singleton.mp mem
          have same : d₂.room cfg x = d₁.room cfg x := roomL x
          exact same ▸ fits
        · intro x mem
          obtain rfl := mem_singleton.mp mem
          exact le_max_right ..
        · intro x absent away
          have other : x ≠ p := fun same => absent (by simp [same])
          exact (others' x other).trans (othersL x other away)
        · intro q
          have same : d₂.room cfg q = d₁.room cfg q := roomL q
          exact (grown.room q).trans (le_of_eq same.symm)
        · exact ⟨p, mem_singleton_self p, by rw [← sizeL]⟩
      · have other : q ≠ p := fun same => apart (by rw [prev, same])
        exact (others' q other).trans (prevL q prev)
    · next more =>
      have long : cfg.nameSize < name.length := by
        rw [drop_eq_nil_iff] at more
        omega
      have count : (name.length - 1) / cfg.nameSize = ((name.drop cfg.nameSize).length - 1) / cfg.nameSize + 1 := by
        rw [length_drop, ← add_div_right _ positive]
        congr 1
        omega
      rw [count] at clean
      obtain ⟨clear, clean'⟩ := clean fuel d₁ p found
      have cleanL : d₂.Clean cfg (((name.drop cfg.nameSize).length - 1) / cfg.nameSize) (p + cfg.sizeofDirent) := by
        refine clean'.congr datasizeL fun q later => ?_
        refine othersL q (by omega) fun prev => ?_
        have less := (before q prev).2
        omega
      obtain ⟨p', rest, held, placed, prev'⟩ := ih run more (by rw [length_drop]; omega)
        (Nat.dvd_add (divides multiple) (Nat.dvd_refl _)) (by
          rintro q ⟨⟩
          exact ⟨fragment.inuse, by omega⟩) cleanL
      have here := prev' p rfl
      have absent : p ∉ p' :: rest := fun mem => by
        have later := placed.later p mem
        omega
      refine ⟨p, p' :: rest, .more ?_ long ?_ ?_ held, ?_, fun q prev => ?_⟩
      · rw [here]
        exact fragment.update p' _
      · rw [here]
        exact lastL.trans clear
      · rw [here]
      · refine ⟨nodup_cons.mpr ⟨absent, placed.nodup⟩, ?_, ?_, ?_, ?_, ?_, ?_, ?_, ?_⟩
        · intro x mem
          rcases mem_cons.mp mem with rfl | later
          · exact free
          · have unused := placed.free x later
            have low' := placed.later x later
            rwa [othersL x (by omega) fun prev => by have less := (before x prev).2; omega] at unused
        · intro x mem
          rcases mem_cons.mp mem with rfl | later
          · exact divides multiple
          · exact placed.multiple x later
        · intro x mem
          rcases mem_cons.mp mem with rfl | later
          · exact (fits.trans (le_of_eq (roomL x).symm)).trans (placed.room x)
          · exact placed.fits x later
        · intro x mem
          rcases mem_cons.mp mem with rfl | later
          · have inside := placed.inside p' (mem_cons_self ..)
            have low' := placed.later p' (mem_cons_self ..)
            omega
          · exact placed.inside x later
        · intro x mem
          rcases mem_cons.mp mem with rfl | later
          · exact low
          · have low' := placed.later x later
            omega
        · intro x notIn away
          obtain ⟨other, notIn'⟩ := not_or.mp (mem_cons.not.mp notIn)
          have changed := placed.others x notIn' fun same => other (some.inj same).symm
          exact changed.trans (othersL x other away)
        · intro q
          exact ((grown.room q).trans (le_of_eq (roomL q).symm)).trans (placed.room q)
        · obtain ⟨x, mem, eq⟩ := placed.size
          exact ⟨x, mem_cons_of_mem p mem, by rw [eq, sizeL]⟩
      · have other : q ≠ p := fun same => apart (by rw [prev, same])
        have notIn : q ∉ p' :: rest := fun mem => by
          have low' := placed.later q mem
          have less := (before q prev).2
          omega
        have changed := placed.others q notIn fun same => other (some.inj same).symm
        exact changed.trans (prevL q prev)

end Ecos.Ramfs.Dir
