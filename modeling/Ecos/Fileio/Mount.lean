import Ecos.Fileio.Mtab
import Ecos.Lib.Machine

namespace Ecos.Fileio

inductive Errno
  | enoerr | enomem | enodev | einval | ebusy | enoent | fserr
  deriving DecidableEq, Repr

inductive FsKind
  | fat | ram | rom | jffs2
  deriving DecidableEq, Repr

/-- `CYG_DIR_NULL`. -/
def dirNull : Nat := 0

/-- What a file system keeps of a volume, as far as its directories are concerned, by their addresses.
`held` are the references that `chdir` has taken, besides the one of the mount itself. -/
structure Volume where
  kind : FsKind
  root : Nat
  subdirs : List Nat
  deeper : List Nat
  held : List Nat
  above : deeper ≠ [] → subdirs ≠ []
  nonnull : dirNull ∉ root :: (subdirs ++ deeper)
  apart : root ∉ subdirs ++ deeper

namespace Volume

def dirs (v : Volume) : List Nat := v.root :: (v.subdirs ++ v.deeper)

/-- What counts as a directory handle: only FAT takes `CYG_DIR_NULL` for the root. -/
def Handle (v : Volume) (dir : Nat) : Prop := dir ∈ v.dirs ∨ (v.kind = .fat ∧ dir = dirNull)

instance (v : Volume) (dir : Nat) : Decidable (v.Handle dir) := inferInstanceAs (Decidable (_ ∨ _))

/-- Whether `chdir` counts a reference to the directory. -/
def counts (v : Volume) (dir : Nat) : Bool :=
  match v.kind with
  | .fat => dir ≠ v.root
  | .ram | .jffs2 => true
  | .rom => false

/-- The file system's `chdir` with `dir_out`, and without. -/
def hold (v : Volume) (dir : Nat) : Volume := if v.counts dir then { v with held := dir :: v.held } else v

def forget (v : Volume) (dir : Nat) : Volume := if v.counts dir then { v with held := v.held.erase dir } else v

/-- The test of `fatfs_umount`: the root has its own reference and no other, and no other node is live. -/
def fatBusy (v : Volume) : Bool := v.root ∈ v.held ∨ v.held.any (· ≠ v.root)

/-- The test of `ramfs_umount`. Every directory in the root links to it. -/
def ramBusy (v : Volume) : Bool := v.held.count v.root ≠ 0 ∨ 2 + v.subdirs.length ≠ 2

end Volume

/-- The mount table, the volumes behind it and the current directory. `data` leads from an entry to its volume. -/
structure Mounts where
  mtab : List (MtabEntry Nat)
  data : Nat → Nat
  vol : Nat → Volume
  cdirMte : Option Nat
  cdirDir : Nat

/-- What comes of the search in `fstab` and of the file system's `mount`. A volume of JFFS2 may be mounted again. -/
inductive Outcome
  | unknown
  | failed
  | made (id : Nat) (v : Volume)
  | again (id : Nat)

namespace Mounts
variable (mtabMax : Nat)

def freeSlot (s : Mounts) : Option Nat := (s.mtab.take mtabMax).findIdx? fun m => m.name.isNone

/-- The end of `mount`. It is reached on failure as well. -/
def adopt (s : Mounts) (i : Nat) : Mounts := if s.cdirMte = none then { s with cdirMte := some i } else s

def insert (s : Mounts) (i : Nat) (dir : Path) (id : Nat) (v : Volume) : Mounts :=
  { s with mtab := s.mtab.set i ⟨some dir, true, v.root⟩, data := Function.update s.data i id, vol := Function.update s.vol id v }

def mount (s : Mounts) (dir : Path) (outcome : Outcome) : Errno × Mounts :=
  match s.freeSlot mtabMax with
  | none => (.enomem, s)
  | some i =>
    match outcome with
    | .unknown => (.enodev, s)
    | .failed => (.fserr, { s with mtab := s.mtab.modify i fun m => { m with name := none, valid := false } }.adopt i)
    | .made id v => (.enoerr, (s.insert i dir id v).adopt i)
    | .again id => (.enoerr, (s.insert i dir id (s.vol id)).adopt i)

/-- `s_mount_count`: how many entries share a volume. -/
def mountCount (s : Mounts) (id : Nat) : Nat :=
  ((List.range s.mtab.length).filter fun i => ((s.mtab[i]?).any (·.valid)) && s.data i = id).length

/-- In `jffs2_umount`: if the root is mounted on `/` and only current, it is let go. -/
def letGo (s : Mounts) (i : Nat) (name : Path) : Mounts :=
  let v := s.vol (s.data i)
  if 1 + v.held.count v.root = 2 ∧ s.cdirMte = some i ∧ s.cdirDir = v.root ∧ name = [slash] then
    { s with cdirDir := dirNull, vol := Function.update s.vol (s.data i) { v with held := v.held.erase v.root } }
  else s

def clearMte (s : Mounts) (i : Nat) : Mounts := if s.cdirMte = some i then { s with cdirMte := none } else s

/-- `jffs2_umount`, up to the release of the volume. It takes the current directory away itself. -/
def jffs2Umount (s : Mounts) (i : Nat) (name : Path) : Errno × Mounts :=
  let v := s.vol (s.data i)
  if s.mountCount (s.data i) = 1 then
    if v.held.any (· ≠ v.root) then (.ebusy, s)
    else
      let s := (s.letGo i name).clearMte i
      (if 1 + (s.vol (s.data i)).held.count v.root ≠ 1 then .ebusy else .enoerr, s)
  else (.enoerr, s)

/-- `m->fs->umount`. -/
def fsUmount (s : Mounts) (i : Nat) (name : Path) : Errno × Mounts :=
  let v := s.vol (s.data i)
  match v.kind with
  | .fat => (if v.fatBusy then .ebusy else .enoerr, s)
  | .ram => (if v.ramBusy then .ebusy else .enoerr, s)
  | .rom => (.enoerr, s)
  | .jffs2 => s.jffs2Umount i name

def findMount (s : Mounts) (name : Path) : Option Nat :=
  (s.mtab.take mtabMax).findIdx? fun m => m.valid && m.name = some name

def umount (s : Mounts) (name : Path) : Errno × Mounts :=
  match s.findMount mtabMax name with
  | none => (.einval, s)
  | some i =>
    let (err, s) := s.fsUmount i name
    if err = .enoerr then (.enoerr, { s with mtab := s.mtab.modify i fun m => { m with name := none, valid := false } })
    else (err, s)

/-- `chdir`; `found` is the directory that the file system finds, if any. Outside, `none` is an access
through a null pointer, or a search that finds no directory of the volume. -/
def chdir (s : Mounts) (path : Path) (found : Option Nat) : Option (Errno × Mounts) :=
  match mtabLookup s.mtab s.cdirDir path s.cdirMte with
  | none => none
  | some none => some (.enoent, s)
  | some (some (mte, dir, _)) =>
    if ¬ (s.vol (s.data mte)).Handle dir then none
    else
      match found with
      | none => some (.fserr, s)
      | some newdir =>
        if newdir ∉ (s.vol (s.data mte)).dirs then none
        else
          let vol := Function.update s.vol (s.data mte) ((s.vol (s.data mte)).hold newdir)
          let vol := match s.cdirMte with
            | none => vol
            | some cur => if s.cdirDir = dirNull then vol
              else Function.update vol (s.data cur) ((vol (s.data cur)).forget s.cdirDir)
          some (.enoerr, { s with vol, cdirMte := some mte, cdirDir := newdir })

inductive Call
  | mount (dir : Path) (outcome : Outcome)
  | umount (name : Path)
  | chdir (path : Path) (found : Option Nat)

def act (s : Mounts) : Call → Option (Errno × Mounts)
  | .mount dir outcome => some (s.mount mtabMax dir outcome)
  | .umount name => some (s.umount mtabMax name)
  | .chdir path found => s.chdir path found

/-- A new volume is not in use yet, and only a volume of JFFS2 that is mounted is mounted again. -/
def Legal (s : Mounts) : Call → Prop
  | .mount _ (.made id v) => v.held = [] ∧ s.mountCount id = 0
  | .mount _ (.again id) => (s.vol id).kind = .jffs2 ∧ s.mountCount id ≠ 0
  | _ => True

/-- Before the first call: some entries may be mounted, none is current. -/
def start (s : Mounts) : Prop :=
  s.cdirMte = none ∧ s.cdirDir = dirNull ∧ (∀ id, (s.vol id).held = []) ∧
    (∀ m ∈ s.mtab, m.name = none → m.valid = false) ∧
    (∀ id, 1 < s.mountCount id → (s.vol id).kind = .jffs2) ∧
    ∀ i m, s.mtab[i]? = some m → m.valid = true → m.root = (s.vol (s.data i)).root

def machine (Ok : Mounts → Call → Prop) : Machine Mounts where
  init := start
  step s s' := ∃ call err, s.Legal call ∧ Ok s call ∧ s.act mtabMax call = some (err, s')

/-- The current directory is on a mounted file system. -/
def Anchored (s : Mounts) : Prop :=
  ∀ i, s.cdirMte = some i → ∃ m, s.mtab[i]? = some m ∧ m.valid = true ∧ m.name ≠ none ∧
    (s.vol (s.data i)).Handle s.cdirDir

end Mounts

end Ecos.Fileio
