import Ecos.Fileio.Mount

namespace Ecos.Fileio
open Function Option List

namespace Volume
variable {v : Volume} {dir other : Nat}

@[simp] theorem hold_kind : (v.hold dir).kind = v.kind := by
  rw [hold]
  split <;> rfl

@[simp] theorem hold_root : (v.hold dir).root = v.root := by
  rw [hold]
  split <;> rfl

@[simp] theorem hold_dirs : (v.hold dir).dirs = v.dirs := by
  rw [hold]
  split <;> rfl

@[simp] theorem forget_kind : (v.forget dir).kind = v.kind := by
  rw [forget]
  split <;> rfl

@[simp] theorem forget_root : (v.forget dir).root = v.root := by
  rw [forget]
  split <;> rfl

@[simp] theorem forget_dirs : (v.forget dir).dirs = v.dirs := by
  rw [forget]
  split <;> rfl

theorem counts_eq {w : Volume} (kind : w.kind = v.kind) (root : w.root = v.root) : w.counts dir = v.counts dir := by
  rw [counts, counts, kind, root]

/-- The references when one directory of the volume is current, or none. -/
def heldBy (v : Volume) (dir : Nat) : List Nat := if dir ≠ dirNull ∧ v.counts dir = true then [dir] else []

theorem hold_held (none : v.held = []) (proper : dir ≠ dirNull) : (v.hold dir).held = v.heldBy dir := by
  rw [hold, heldBy]
  by_cases counted : v.counts dir = true
  · rw [if_pos counted, if_pos ⟨proper, counted⟩, none]
  · rw [if_neg counted, if_neg fun both => counted both.2, none]

theorem forget_held (held : v.held = v.heldBy dir) (proper : dir ≠ dirNull) : (v.forget dir).held = [] := by
  rw [forget]
  rw [heldBy] at held
  by_cases counted : v.counts dir = true
  · rw [if_pos ⟨proper, counted⟩] at held
    rw [if_pos counted, held]
    simp
  · rw [if_neg fun both => counted both.2] at held
    rw [if_neg counted, held]

theorem forget_hold_held (held : v.held = v.heldBy other) (proper : dir ≠ dirNull) (proper' : other ≠ dirNull) :
    ((v.hold dir).forget other).held = v.heldBy dir := by
  have same : (v.hold dir).counts other = v.counts other := counts_eq hold_kind hold_root
  rw [forget, same, heldBy]
  rw [heldBy] at held
  by_cases counted : v.counts other = true
  · rw [if_pos ⟨proper', counted⟩] at held
    rw [if_pos counted]
    by_cases counted' : v.counts dir = true
    · rw [hold, if_pos counted', if_pos ⟨proper, counted'⟩]
      rw [held]
      by_cases equal : dir = other
      · rw [equal]
        simp
      · simp [equal]
    · rw [hold, if_neg counted', if_neg fun both => counted' both.2]
      rw [held]
      simp
  · rw [if_neg fun both => counted both.2] at held
    rw [if_neg counted, hold]
    by_cases counted' : v.counts dir = true
    · rw [if_pos counted', if_pos ⟨proper, counted'⟩, held]
    · rw [if_neg counted', if_neg fun both => counted' both.2, held]

theorem heldBy_eq {w : Volume} (kind : w.kind = v.kind) (root : w.root = v.root) : w.heldBy dir = v.heldBy dir := by
  rw [heldBy, heldBy, counts_eq kind root]

end Volume

namespace Mounts
variable {mtabMax : Nat} {s s' : Mounts} {i j id : Nat} {err : Errno} {dir name path : Path}

/-- The entry is in use. -/
def InUse (s : Mounts) (i : Nat) : Prop := ∃ m, s.mtab[i]? = some m ∧ m.valid = true

theorem mountCount_pos (used : s.InUse i) : s.mountCount (s.data i) ≠ 0 := by
  obtain ⟨m, here, valid⟩ := used
  have mem : i ∈ (List.range s.mtab.length).filter fun j => ((s.mtab[j]?).any (·.valid)) && s.data j = s.data i := by
    refine List.mem_filter.mpr ⟨List.mem_range.mpr (List.getElem?_eq_some_iff.mp here).1, ?_⟩
    simp [here, valid]
  exact Nat.pos_iff_ne_zero.mp (length_pos_of_mem mem)

theorem mountCount_two (one : s.InUse i) (two : s.InUse j) (differ : i ≠ j) (same : s.data j = s.data i) :
    s.mountCount (s.data i) ≠ 1 := by
  have mem : ∀ {k}, s.InUse k → s.data k = s.data i →
      k ∈ (List.range s.mtab.length).filter fun j => ((s.mtab[j]?).any (·.valid)) && s.data j = s.data i := by
    rintro k ⟨m, here, valid⟩ equal
    refine List.mem_filter.mpr ⟨List.mem_range.mpr (List.getElem?_eq_some_iff.mp here).1, ?_⟩
    simp [here, valid, equal]
  intro single
  obtain ⟨k, only⟩ := length_eq_one_iff.mp single
  have first := mem one rfl
  have second := mem two same
  rw [only, mem_singleton] at first second
  exact differ (first.trans second.symm)

/-- The mount table by itself. -/
structure Tabled (s : Mounts) : Prop where
  empty : ∀ (i : Nat) (m : MtabEntry Nat), s.mtab[i]? = some m → m.name = none → m.valid = false
  shared : ∀ i j, s.InUse i → s.InUse j → s.data j = s.data i → i ≠ j → (s.vol (s.data i)).kind = .jffs2
  roots : ∀ (i : Nat) (m : MtabEntry Nat), s.mtab[i]? = some m → m.valid = true → m.root = (s.vol (s.data i)).root

/-- What the calls keep while the current directory is protected. -/
structure Inv (s : Mounts) : Prop where
  anchored : s.Anchored
  idle : s.cdirMte = none → s.cdirDir = dirNull
  current : ∀ i, s.cdirMte = some i → (s.vol (s.data i)).held = (s.vol (s.data i)).heldBy s.cdirDir
  others : ∀ id, (∀ i, s.cdirMte = some i → s.data i ≠ id) → (s.vol id).held = []
  tabled : s.Tabled

/-- What the code does not take care of: a mount that fails, or does not take `CYG_DIR_NULL` for a directory, while
there is no current directory; and the end of the file system of the current directory. -/
def Careful (mtabMax : Nat) (s : Mounts) : Call → Prop
  | .mount _ outcome => s.cdirMte ≠ none ∨ s.freeSlot mtabMax = none ∨
      match outcome with
      | .unknown => True
      | .made _ v => v.kind = .fat
      | .failed | .again _ => False
  | .umount name => ∀ i, s.findMount mtabMax name = some i → s.cdirMte = some i →
      let v := s.vol (s.data i)
      match v.kind with
      | .fat => s.cdirDir ≠ dirNull ∧ s.cdirDir ≠ v.root
      | .ram => True
      | .rom => False
      | .jffs2 => s.mountCount (s.data i) = 1 ∧ (s.cdirDir ≠ v.root ∨ name = [slash])
  | .chdir _ _ => True

theorem freeSlot_spec (free : s.freeSlot mtabMax = some i) : ∃ m, s.mtab[i]? = some m ∧ m.name = none := by
  obtain ⟨below, isNone, _⟩ := findIdx?_eq_some_iff_getElem.mp free
  rw [getElem_take] at isNone
  rw [length_take] at below
  exact ⟨_, getElem?_eq_getElem (by omega), by simpa using isNone⟩

theorem Inv.modify (inv : s.Inv) (free : s.freeSlot mtabMax = some i) :
    s.mtab.modify i (fun m => { m with name := none, valid := false }) = s.mtab := by
  obtain ⟨m, here, none⟩ := freeSlot_spec free
  have invalid := inv.tabled.empty i m here none
  refine ext_getElem? fun j => ?_
  rw [getElem?_modify]
  by_cases same : i = j
  · subst same
    rw [here, Option.map_eq_map, Option.map_some, if_pos rfl, ← none, ← invalid]
  · simp [same]

theorem Inv.slot (inv : s.Inv) (free : s.freeSlot mtabMax = some i) : ¬ s.InUse i := by
  rintro ⟨m, here, valid⟩
  obtain ⟨m', here', none⟩ := freeSlot_spec free
  obtain rfl : m = m' := some.inj (here.symm.trans here')
  rw [inv.tabled.empty i m here none] at valid
  simp at valid

theorem Inv.inUse (inv : s.Inv) (current : s.cdirMte = some i) : s.InUse i := by
  obtain ⟨m, here, valid, _⟩ := inv.anchored i current
  exact ⟨m, here, valid⟩

section Insert
variable {v : Volume} (inv : s.Inv) (free : s.freeSlot mtabMax = some i)
  (new : (v.held = [] ∧ s.mountCount id = 0) ∨ (v = s.vol id ∧ (s.vol id).kind = .jffs2)) (dir)
include inv free new

theorem Inv.insert_at (j : Nat) :
    (s.insert i dir id v).mtab[j]? = if i = j then some ⟨some dir, true, v.root⟩ else s.mtab[j]? := by
  obtain ⟨m₀, here₀, _⟩ := freeSlot_spec free
  have below := (List.getElem?_eq_some_iff.mp here₀).1
  rw [Mounts.insert, List.getElem?_set]
  simp [below]

theorem Inv.insert_old (used : s.InUse j) :
    i ≠ j ∧ (s.insert i dir id v).data j = s.data j ∧ (s.insert i dir id v).vol (s.data j) = s.vol (s.data j) := by
  have other : i ≠ j := fun same => inv.slot free (same ▸ used)
  refine ⟨other, update_of_ne (Ne.symm other) .., ?_⟩
  by_cases same : s.data j = id
  · rcases new with ⟨_, none⟩ | ⟨rfl, _⟩
    · exact absurd none (same ▸ mountCount_pos used)
    · rw [Mounts.insert, update_eq_self]
  · exact update_of_ne same ..

theorem Inv.insert_used (used : (s.insert i dir id v).InUse j) : i = j ∨ s.InUse j := by
  obtain ⟨m, here, valid⟩ := used
  rw [inv.insert_at dir free new] at here
  split at here
  · next same => exact .inl same
  · exact .inr ⟨m, here, valid⟩

theorem Inv.insert_tabled : (s.insert i dir id v).Tabled := by
  have dataI : (s.insert i dir id v).data i = id := update_self ..
  have volId : (s.insert i dir id v).vol id = v := update_self ..
  -- a volume that is shared with the new entry has been mounted before
  have joined : ∀ j, s.InUse j → (s.insert i dir id v).data j = id → v.kind = .jffs2 := by
    intro j used equal
    rw [(inv.insert_old dir free new used).2.1] at equal
    rcases new with ⟨_, none⟩ | ⟨rfl, kind⟩
    · exact absurd none (equal ▸ mountCount_pos used)
    · exact kind
  refine ⟨fun j m here none => ?_, fun j k usedJ usedK equal differ => ?_, fun j m here valid => ?_⟩
  · rw [inv.insert_at dir free new] at here
    split at here
    · obtain rfl := some.inj here
      simp at none
    · exact inv.tabled.empty j m here none
  · rcases inv.insert_used dir free new usedJ with rfl | oldJ <;> rcases inv.insert_used dir free new usedK with rfl | oldK
    · exact absurd rfl differ
    · rw [dataI] at equal ⊢
      rw [volId]
      exact joined k oldK equal
    · rw [dataI] at equal
      rw [← equal, volId]
      exact joined j oldJ equal.symm
    · obtain ⟨_, dataJ, volJ⟩ := inv.insert_old dir free new oldJ
      obtain ⟨_, dataK, _⟩ := inv.insert_old dir free new oldK
      rw [dataJ, dataK] at equal
      rw [dataJ, volJ]
      exact inv.tabled.shared j k oldJ oldK equal differ
  · rw [inv.insert_at dir free new] at here
    split at here
    · next same =>
      obtain rfl := some.inj here
      rw [← same, dataI, volId]
    · obtain ⟨_, dataJ, volJ⟩ := inv.insert_old dir free new ⟨m, here, valid⟩
      rw [dataJ, volJ]
      exact inv.tabled.roots j m here valid

theorem Inv.insert (fresh : s.cdirMte = none → v.kind = .fat) : ((s.insert i dir id v).adopt i).Inv := by
  have dataI : (s.insert i dir id v).data i = id := update_self ..
  have volId : (s.insert i dir id v).vol id = v := update_self ..
  have volOther : ∀ x, x ≠ id → (s.insert i dir id v).vol x = s.vol x := fun x other => update_of_ne other ..
  have unheld : (∀ j, s.cdirMte = some j → s.data j ≠ id) → v.held = [] := by
    intro away
    rcases new with ⟨none, _⟩ | ⟨rfl, _⟩
    · exact none
    · exact inv.others id away
  have tabled := inv.insert_tabled dir free new
  have at' := inv.insert_at dir free new
  cases current : s.cdirMte with
  | none =>
    have null := inv.idle current
    have adopted : (s.insert i dir id v).adopt i = { s.insert i dir id v with cdirMte := some i } := if_pos current
    have clear : v.held = [] := unheld (by simp [current])
    rw [adopted]
    refine ⟨?_, by simp, ?_, fun x away => ?_, tabled.empty, tabled.shared, tabled.roots⟩
    · rintro j ⟨⟩
      refine ⟨_, (at' i).trans (if_pos rfl), rfl, by simp, .inr ⟨?_, null⟩⟩
      rw [dataI, volId]
      exact fresh current
    · rintro j ⟨⟩
      rw [dataI, volId, clear, Volume.heldBy, if_neg fun both => both.1 null]
    · have other : x ≠ id := fun same => away i rfl (dataI.trans same.symm)
      rw [volOther x other]
      exact inv.others x (by simp [current])
  | some cur =>
    have adopted : (s.insert i dir id v).adopt i = s.insert i dir id v := if_neg (by rw [Mounts.insert, current]; simp)
    have used := inv.inUse current
    obtain ⟨other, data, vol⟩ := inv.insert_old dir free new used
    rw [adopted]
    refine ⟨fun j isCur => ?_, fun none => ?_, fun j isCur => ?_, fun x away => ?_, tabled⟩
    · obtain rfl : cur = j := some.inj (current.symm.trans isCur)
      obtain ⟨m, here, valid, named, handle⟩ := inv.anchored cur current
      refine ⟨m, (at' cur).trans ((if_neg other).trans here), valid, named, ?_⟩
      rw [data, vol]
      exact handle
    · exact absurd (current.symm.trans none) (by simp)
    · obtain rfl : cur = j := some.inj (current.symm.trans isCur)
      rw [data, vol]
      exact inv.current cur current
    · have apart : s.data cur ≠ x := fun equal => away cur current (data.trans equal)
      by_cases isId : x = id
      · rw [isId, volId]
        refine unheld fun j isCur => ?_
        obtain rfl : cur = j := some.inj (current.symm.trans isCur)
        rw [← isId]
        exact apart
      · rw [volOther x isId]
        refine inv.others x fun j isCur => ?_
        obtain rfl : cur = j := some.inj (current.symm.trans isCur)
        exact apart

end Insert

theorem Inv.mount {outcome : Outcome} (inv : s.Inv) (legal : s.Legal (.mount dir outcome))
    (careful : Careful mtabMax s (.mount dir outcome)) :
    (s.mount mtabMax dir outcome).2.Inv ∧ ((s.mount mtabMax dir outcome).1 ≠ .enoerr → (s.mount mtabMax dir outcome).2 = s) := by
  rw [Mounts.mount]
  split
  · exact ⟨inv, fun _ => rfl⟩
  next i free =>
  split
  · exact ⟨inv, fun _ => rfl⟩
  · rw [inv.modify free]
    have current : s.cdirMte ≠ none := by
      rcases careful with current | none | bad
      · exact current
      · simp [free] at none
      · exact absurd bad (by simp)
    have same : s.adopt i = s := if_neg current
    exact ⟨same.symm ▸ inv, fun _ => same⟩
  · next id v =>
    refine ⟨inv.insert dir free (.inl legal) fun none => ?_, fun bad => absurd rfl bad⟩
    rcases careful with current | full | kind
    · exact absurd none current
    · simp [free] at full
    · exact kind
  · next id =>
    refine ⟨inv.insert dir free (.inr ⟨rfl, legal.1⟩) fun none => ?_, fun bad => absurd rfl bad⟩
    rcases careful with current | full | bad
    · exact absurd none current
    · simp [free] at full
    · exact absurd bad (by simp)

theorem Inv.remove (inv : s.Inv) (away : s.cdirMte ≠ some i) :
    Inv { s with mtab := s.mtab.modify i fun m => { m with name := none, valid := false } } := by
  have at' : ∀ {j : Nat} {m : MtabEntry Nat}, (s.mtab.modify i fun m => { m with name := none, valid := false })[j]? = some m →
      (i = j ∧ m.valid = false) ∨ (i ≠ j ∧ s.mtab[j]? = some m) := by
    intro j m here
    rw [getElem?_modify] at here
    obtain ⟨m₀, old, rfl⟩ := map_eq_some_iff.mp here
    by_cases same : i = j
    · exact .inl ⟨same, by rw [if_pos same]⟩
    · exact .inr ⟨same, by rw [if_neg same]; exact old⟩
  have used : ∀ {j}, InUse { s with mtab := s.mtab.modify i fun m => { m with name := none, valid := false } } j → s.InUse j := by
    rintro j ⟨m, here, valid⟩
    rcases at' here with ⟨_, invalid⟩ | ⟨_, old⟩
    · simp [invalid] at valid
    · exact ⟨m, old, valid⟩
  refine ⟨fun j current => ?_, inv.idle, inv.current, inv.others, fun j m here none => ?_,
    fun j k usedJ usedK => inv.tabled.shared j k (used usedJ) (used usedK), fun j m here valid => ?_⟩
  · obtain ⟨m, here, valid, named, handle⟩ := inv.anchored j current
    have other : i ≠ j := fun same => away (same ▸ current)
    exact ⟨m, by rw [getElem?_modify, here]; simp [other], valid, named, handle⟩
  · rcases at' here with ⟨_, invalid⟩ | ⟨_, old⟩
    · exact invalid
    · exact inv.tabled.empty j m old none
  · rcases at' here with ⟨_, invalid⟩ | ⟨_, old⟩
    · simp [invalid] at valid
    · exact inv.tabled.roots j m old valid

theorem jffs2Umount_other (away : s.cdirMte ≠ some i) : (s.jffs2Umount i name).2 = s := by
  have kept : (s.letGo i name).clearMte i = s := by
    rw [letGo, if_neg fun all => away all.2.1, clearMte, if_neg away]
  rw [jffs2Umount]
  split
  · split
    · rfl
    · exact kept
  · rfl

theorem Inv.unmounted {held : List Nat} (inv : s.Inv) (current : s.cdirMte = some i) (none : held = []) : Inv { s with
      cdirMte := Option.none
      cdirDir := dirNull
      vol := update s.vol (s.data i) { s.vol (s.data i) with held } } := by
  subst none
  have vol : ∀ x, (update s.vol (s.data i) { s.vol (s.data i) with held := [] } x).kind = (s.vol x).kind ∧
      (update s.vol (s.data i) { s.vol (s.data i) with held := [] } x).root = (s.vol x).root := by
    intro x
    by_cases same : x = s.data i
    · rw [same, update_self]
      exact ⟨rfl, rfl⟩
    · rw [update_of_ne same]
      exact ⟨rfl, rfl⟩
  refine ⟨fun j bad => by simp at bad, fun _ => rfl, fun j bad => by simp at bad, fun x _ => ?_, inv.tabled.empty,
    fun j k usedJ usedK same differ => (vol _).1.trans (inv.tabled.shared j k usedJ usedK same differ),
    fun j m here valid => (inv.tabled.roots j m here valid).trans (vol _).2.symm⟩
  by_cases same : x = s.data i
  · dsimp only
    rw [same, update_self]
  · dsimp only
    rw [update_of_ne same]
    refine inv.others x fun j isCur => ?_
    rw [← some.inj (current.symm.trans isCur)]
    exact Ne.symm same

theorem Inv.jffs2Umount (inv : s.Inv) (current : s.cdirMte = some i) (kind : (s.vol (s.data i)).kind = .jffs2)
    (once : s.mountCount (s.data i) = 1) (safe : s.cdirDir ≠ (s.vol (s.data i)).root ∨ name = [slash]) :
    (s.jffs2Umount i name).2.Inv ∧ ((s.jffs2Umount i name).1 = .enoerr → (s.jffs2Umount i name).2.cdirMte ≠ some i) := by
  obtain ⟨_, _, _, _, handle⟩ := inv.anchored i current
  have inside : s.cdirDir ∈ (s.vol (s.data i)).dirs := handle.resolve_right fun fat => by simp [kind] at fat
  have proper : s.cdirDir ≠ dirNull := fun null => (s.vol (s.data i)).nonnull (null ▸ inside)
  have held : (s.vol (s.data i)).held = [s.cdirDir] := by
    rw [inv.current i current, Volume.heldBy, if_pos ⟨proper, by rw [Volume.counts, kind]⟩]
  rw [Mounts.jffs2Umount]
  rw [if_pos once]
  by_cases top : s.cdirDir = (s.vol (s.data i)).root
  · have mounted := safe.resolve_left (fun differ => differ top)
    have only : ((s.vol (s.data i)).held.any fun d => d ≠ (s.vol (s.data i)).root) = false := by simp [held, top]
    have counted : 1 + (s.vol (s.data i)).held.count (s.vol (s.data i)).root = 2 := by simp [held, top]
    have erased : (s.vol (s.data i)).held.erase (s.vol (s.data i)).root = [] := by simp [held, top]
    have gone : (s.letGo i name).clearMte i = { s with
        cdirMte := Option.none
        cdirDir := dirNull
        vol := update s.vol (s.data i) { s.vol (s.data i) with
          held := (s.vol (s.data i)).held.erase (s.vol (s.data i)).root } } := by
      rw [letGo, if_pos ⟨counted, current, top, mounted⟩, clearMte, if_pos current]
    rw [only, if_neg (by simp), gone]
    exact ⟨inv.unmounted current erased, fun _ => by simp⟩
  · have busy : ((s.vol (s.data i)).held.any fun d => d ≠ (s.vol (s.data i)).root) = true := by simp [held, top]
    rw [busy, if_pos rfl]
    exact ⟨inv, by simp⟩

theorem Inv.fsUmount (inv : s.Inv) (found : s.findMount mtabMax name = some i) (careful : Careful mtabMax s (.umount name)) :
    (s.fsUmount i name).2.Inv ∧ ((s.fsUmount i name).1 = .enoerr → (s.fsUmount i name).2.cdirMte ≠ some i) := by
  by_cases current : s.cdirMte = some i
  · have safe := careful i found current
    obtain ⟨_, _, _, _, handle⟩ := inv.anchored i current
    have held := inv.current i current
    rw [Mounts.fsUmount]
    dsimp only at safe ⊢
    split
    · next kind =>
      rw [kind] at safe
      refine ⟨inv, fun ok => ?_⟩
      rw [Volume.heldBy, if_pos ⟨safe.1, by rw [Volume.counts, kind]; simp [safe.2]⟩] at held
      simp [Volume.fatBusy, held, safe.2] at ok
    · next kind =>
      have inside : s.cdirDir ∈ (s.vol (s.data i)).dirs := handle.resolve_right fun fat => by simp [kind] at fat
      have proper : s.cdirDir ≠ dirNull := fun null => (s.vol (s.data i)).nonnull (null ▸ inside)
      refine ⟨inv, fun ok => ?_⟩
      rw [Volume.heldBy, if_pos ⟨proper, by rw [Volume.counts, kind]⟩] at held
      have idle : (s.vol (s.data i)).ramBusy = false := by
        by_contra busy
        simp [busy] at ok
      obtain ⟨unheld, flat⟩ : s.cdirDir ≠ (s.vol (s.data i)).root ∧ (s.vol (s.data i)).subdirs = [] := by
        simpa [Volume.ramBusy, held, count_singleton] using idle
      have deep : (s.vol (s.data i)).deeper = [] := by
        by_contra some
        exact (s.vol (s.data i)).above some flat
      rw [Volume.dirs, flat, deep] at inside
      exact absurd (by simpa using inside) unheld
    · next kind =>
      rw [kind] at safe
      exact safe.elim
    · next kind =>
      rw [kind] at safe
      exact inv.jffs2Umount current kind safe.1 safe.2
  · have same : (s.fsUmount i name).2 = s := by
      rw [Mounts.fsUmount]
      split
      · rfl
      · rfl
      · rfl
      · exact jffs2Umount_other current
    rw [same]
    exact ⟨inv, fun _ => current⟩

theorem Inv.umount (inv : s.Inv) (careful : Careful mtabMax s (.umount name)) : (s.umount mtabMax name).2.Inv := by
  rw [Mounts.umount]
  split
  · exact inv
  next i found =>
  obtain ⟨inv', away⟩ := inv.fsUmount found careful
  dsimp only
  split
  · next ok => exact inv'.remove (away ok)
  · exact inv'

theorem lookup_named {δ : Type} {mtab : List (MtabEntry δ)} {dir d : δ} {rest : Path} {mte : Option Nat}
    (run : mtabLookup mtab dir path mte = some (some (i, d, rest))) : mte = some i ∨ ∃ name, Named mtab i name := by
  rw [mtabLookup.eq_def] at run
  split at run
  · split at run
    · simp at run
    next cur =>
    obtain ⟨m, _, run⟩ := bind_eq_some_iff.mp run
    obtain ⟨cwd, _, run⟩ := bind_eq_some_iff.mp run
    rcases found : bestOf (relativeLen cwd path) mtab 0 (some cur) 0 with ⟨b, l⟩
    rw [found] at run
    obtain ⟨x, isBest, run⟩ := bind_eq_some_iff.mp run
    obtain ⟨m', _, pair⟩ := map_eq_some_iff.mp run
    obtain ⟨rfl, _⟩ := Prod.mk.inj (some.inj pair)
    rcases (bestOf_spec found).ends with ⟨same, _⟩ | ⟨_, j, name, index, named, _⟩
    · exact .inl (same.symm.trans isBest)
    · obtain rfl : j = x := by simpa [index] using isBest
      exact .inr ⟨name, named⟩
  · rcases found : bestOf (matchlen path) mtab 0 none 0 with ⟨b, l⟩
    rw [found] at run
    dsimp only at run
    split at run
    · simp at run
    obtain ⟨x, isBest, run⟩ := bind_eq_some_iff.mp run
    obtain ⟨m', _, pair⟩ := map_eq_some_iff.mp run
    obtain ⟨rfl, _⟩ := Prod.mk.inj (some.inj pair)
    rcases (bestOf_spec found).ends with ⟨same, _⟩ | ⟨_, j, name, index, named, _⟩
    · simp [same] at isBest
    · obtain rfl : j = x := by simpa [index] using isBest
      exact .inr ⟨name, named⟩

theorem Inv.named {dir d : Nat} {rest : Path} (inv : s.Inv) (run : mtabLookup s.mtab dir path s.cdirMte = some (some (i, d, rest))) :
    ∃ m, s.mtab[i]? = some m ∧ m.valid = true ∧ m.name ≠ none := by
  rcases lookup_named run with current | ⟨name, m, here, valid, named⟩
  · obtain ⟨m, here, valid, named, _⟩ := inv.anchored i current
    exact ⟨m, here, valid, named⟩
  · exact ⟨m, here, valid, by simp [named]⟩

theorem Inv.enter {vol : Nat → Volume} {newdir : Nat} (inv : s.Inv)
    (at' : ∃ m, s.mtab[i]? = some m ∧ m.valid = true ∧ m.name ≠ none) (inside : newdir ∈ (s.vol (s.data i)).dirs)
    (same : ∀ x, (vol x).kind = (s.vol x).kind ∧ (vol x).root = (s.vol x).root ∧ (vol x).dirs = (s.vol x).dirs)
    (here : (vol (s.data i)).held = (s.vol (s.data i)).heldBy newdir) (others : ∀ x, x ≠ s.data i → (vol x).held = []) :
    Inv { s with vol, cdirMte := some i, cdirDir := newdir } := by
  refine ⟨?_, by simp, ?_, fun x away => others x fun equal => away i rfl equal.symm, inv.tabled.empty,
    fun j k usedJ usedK equal differ => (same _).1.trans (inv.tabled.shared j k usedJ usedK equal differ),
    fun j m at'' valid => (inv.tabled.roots j m at'' valid).trans (same _).2.1.symm⟩
  · rintro j ⟨⟩
    obtain ⟨m, at'', valid, named⟩ := at'
    refine ⟨m, at'', valid, named, .inl ?_⟩
    rw [(same _).2.2]
    exact inside
  · rintro j ⟨⟩
    rw [here, Volume.heldBy_eq (same _).1 (same _).2.1]

theorem Inv.chdir {found : Option Nat} (inv : s.Inv) (run : s.chdir path found = some (err, s')) : s'.Inv := by
  rw [Mounts.chdir] at run
  split at run
  · simp at run
  · obtain ⟨_, rfl⟩ := Prod.mk.inj (some.inj run)
    exact inv
  next mte dir rest looked =>
  split at run
  · simp at run
  split at run
  · obtain ⟨_, rfl⟩ := Prod.mk.inj (some.inj run)
    exact inv
  next newdir =>
  split at run
  · simp at run
  next inside =>
  rw [not_not] at inside
  have proper : newdir ≠ dirNull := fun null => (s.vol (s.data mte)).nonnull (null ▸ inside)
  obtain ⟨_, rfl⟩ := Prod.mk.inj (some.inj run)
  have held : ∀ x, update s.vol (s.data mte) ((s.vol (s.data mte)).hold newdir) x =
      if x = s.data mte then (s.vol x).hold newdir else s.vol x := by
    intro x
    rw [update_apply]
    split
    · next same => rw [same]
    · rfl
  cases current : s.cdirMte with
  | none =>
    refine inv.enter (inv.named looked) inside (fun x => ?_) ?_ fun x other => ?_
    · dsimp only
      rw [held]
      split <;> simp
    · dsimp only
      rw [held, if_pos rfl]
      exact Volume.hold_held (inv.others _ (by simp [current])) proper
    · dsimp only
      rw [held, if_neg other]
      exact inv.others _ (by simp [current])
  | some cur =>
    have away : ∀ x, x ≠ s.data cur → (s.vol x).held = [] := fun x other => inv.others x fun j isCur => by
      rw [← some.inj (current.symm.trans isCur)]
      exact Ne.symm other
    have now := inv.current cur current
    dsimp only
    split
    · next null =>
      -- nothing was counted for `CYG_DIR_NULL`
      have clear : (s.vol (s.data cur)).held = [] := by rw [now, Volume.heldBy, if_neg fun both => both.1 null]
      have all : ∀ x, (s.vol x).held = [] := fun x => by
        by_cases same : x = s.data cur
        · rw [same, clear]
        · exact away x same
      refine inv.enter (inv.named looked) inside (fun x => ?_) ?_ fun x other => ?_
      · rw [held]
        split <;> simp
      · rw [held, if_pos rfl]
        exact Volume.hold_held (all _) proper
      · rw [held, if_neg other]
        exact all x
    · next some =>
      refine inv.enter (inv.named looked) inside (fun x => ?_) ?_ fun x other => ?_
      · rw [update_apply]
        split
        · next same =>
          rw [same, held]
          split <;> simp
        · rw [held]
          split <;> simp
      · by_cases same : s.data mte = s.data cur
        · rw [same, update_self, update_self]
          exact Volume.forget_hold_held now proper some
        · rw [update_of_ne same, held, if_pos rfl]
          exact Volume.hold_held (away _ same) proper
      · by_cases same : x = s.data cur
        · rw [same, update_self, held, if_neg (fun equal => other (same.trans equal))]
          exact Volume.forget_held now some
        · rw [update_of_ne same, held, if_neg other]
          exact away x same

theorem start_inv (begins : s.start) : s.Inv := by
  obtain ⟨none, null, held, empty, shared, roots⟩ := begins
  refine ⟨fun i current => ?_, fun _ => null, fun i current => ?_, fun id _ => held id,
    fun i m here => empty m (mem_of_getElem? here), fun i j usedI usedJ same differ => ?_, roots⟩
  · simp [none] at current
  · simp [none] at current
  · have some := mountCount_pos usedI
    have more := mountCount_two usedI usedJ differ same
    exact shared _ (by omega)

/-- In every run of calls that are careful where the code is not, the current directory is on a mounted file system,
and a mount that fails changes nothing. -/
theorem cdir_mounted (reach : (machine mtabMax (Careful mtabMax)).Reach s) :
    s.Anchored ∧ ∀ dir outcome, s.Legal (.mount dir outcome) → Careful mtabMax s (.mount dir outcome) →
      (s.mount mtabMax dir outcome).1 ≠ .enoerr → (s.mount mtabMax dir outcome).2 = s := by
  have inv : s.Inv := by
    refine reach.invariant (fun s begins => start_inv begins) ?_
    rintro s s' inv ⟨call, err, legal, careful, run⟩
    cases call with
    | mount dir outcome =>
      obtain rfl := (Prod.mk.inj (Option.some.inj run)).2
      exact (inv.mount legal careful).1
    | umount name =>
      obtain rfl := (Prod.mk.inj (Option.some.inj run)).2
      exact inv.umount careful
    | chdir path found => exact inv.chdir run
  exact ⟨inv.anchored, fun dir outcome legal careful => (inv.mount legal careful).2⟩

section Runs

/-- A volume with nothing but its root. -/
def bareVolume (kind : FsKind) (root : Nat) (proper : root ≠ dirNull) : Volume :=
  ⟨kind, root, [], [], [], fun bad => absurd rfl bad, by simpa using proper.symm, by simp⟩

/-- One free entry in the mount table. -/
def oneSlot : Mounts := ⟨[⟨none, false, dirNull⟩], fun i => i, fun _ => bareVolume .rom 1 (by decide), none, dirNull⟩

theorem oneSlot_start : oneSlot.start := by
  refine ⟨rfl, rfl, fun _ => rfl, by simp [oneSlot], fun id many => ?_, fun i m here valid => ?_⟩
  · simp [mountCount, oneSlot] at many
  · match i, here with
    | 0, here =>
      obtain rfl := some.inj here
      simp at valid
    | i + 1, here => simp [oneSlot] at here

/-- A FAT volume at the root. -/
def fatMounted : Mounts := (oneSlot.mount 1 [slash] (.made 0 (bareVolume .fat 8 (by decide)))).2

theorem cdir_mounted_fat : fatMounted.Anchored := by
  have first : (machine 1 (Careful 1)).Reach oneSlot := .start oneSlot_start
  exact (cdir_mounted (first.next ⟨.mount [slash] (.made 0 (bareVolume .fat 8 (by decide))), .enoerr, ⟨rfl, by decide⟩,
    .inr (.inr rfl), rfl⟩)).1

/-- After a mount that fails, the current directory is on an entry without a name. And a FAT volume of which the root
is current can be unmounted. -/
theorem cdir_dangles :
    (¬ ∀ (mtabMax : Nat) (s : Mounts), (machine mtabMax fun _ _ => True).Reach s → ∀ dir outcome,
      s.Legal (.mount dir outcome) → (s.mount mtabMax dir outcome).1 ≠ .enoerr → (s.mount mtabMax dir outcome).2 = s) ∧
    (¬ ∀ (mtabMax : Nat) (s : Mounts), (machine mtabMax fun _ _ => True).Reach s → s.Anchored) := by
  have first : (machine 1 fun _ _ => True).Reach oneSlot := .start oneSlot_start
  constructor
  · intro claim
    have same := claim 1 oneSlot first [slash] .failed trivial (by decide)
    have cdir := congrArg Mounts.cdirMte same
    simp [Mounts.mount, freeSlot, oneSlot, adopt] at cdir
  · intro claim
    have mounted := first.next (t := fatMounted) ⟨.mount [slash] (.made 0 (bareVolume .fat 8 (by decide))), .enoerr, ⟨rfl, by decide⟩,
      trivial, rfl⟩
    obtain ⟨⟨err, s⟩, run⟩ := Option.isSome_iff_exists.mp
      (show (fatMounted.chdir [slash] (some 8)).isSome = true by decide +kernel)
    have entered := mounted.next ⟨.chdir [slash] (some 8), err, trivial, trivial, run⟩
    have gone := entered.next (t := (s.umount 1 [slash]).2) ⟨.umount [slash], _, trivial, trivial, rfl⟩
    have facts : (fatMounted.chdir [slash] (some 8)).map (fun r => ((r.2.umount 1 [slash]).2.cdirMte,
        ((r.2.umount 1 [slash]).2.mtab[0]?).map fun m => m.valid)) = some (some 0, some false) := by decide +kernel
    rw [run, Option.map_some, Option.some.injEq] at facts
    obtain ⟨current, invalid⟩ := Prod.mk.inj facts
    obtain ⟨m, here, valid, _⟩ := claim 1 _ gone 0 current
    rw [here, Option.map_some, valid] at invalid
    simp at invalid

end Runs

end Mounts

end Ecos.Fileio
