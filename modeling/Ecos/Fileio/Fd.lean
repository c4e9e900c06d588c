import Ecos.Lib.Machine
import Ecos.Lib.Tally

namespace Ecos.Fileio.Fd

/-- The configured sizes. `OPEN_MAX` is the number of file objects. -/
structure Config where
  nfile : Nat
  nfd : Nat
  some : 0 < nfile
  room : nfile ≤ nfd

inductive Errno
  | ebadf | emfile | enfile | enoent | einval | enotsup | other (code : Nat)
  deriving DecidableEq, Repr

/-- What a call returns, and what it stores in `errno` if it does. -/
structure Result where
  value : Int
  errno : Option Errno
  deriving DecidableEq, Repr

def fileioReturn : Option Errno → Result
  | none => ⟨0, none⟩
  | some e => ⟨-1, some e⟩

/-- A file object: the bits of `f_flag` that this layer reads, and `f_ucount`. -/
structure File where
  alloc : Bool
  read : Bool
  write : Bool
  ucount : UInt16
  deriving DecidableEq, Repr

namespace File

/-- `f_flag = 0`. -/
def clear (f : File) : File := { f with alloc := false, read := false, write := false }

/-- `f_ucount++` and `--f_ucount`. -/
def raise (f : File) : File := { f with ucount := f.ucount + 1 }

def lower (f : File) : File := { f with ucount := f.ucount - 1 }

end File

variable {c : Config}

/-- An entry of `desc`; `allocated` is `FD_ALLOCATED`. -/
inductive Desc (c : Config)
  | null
  | allocated
  | file (i : Fin c.nfile)
  deriving DecidableEq, Repr

inductive Direction
  | read | write
  deriving DecidableEq, Repr

/-- The calls of the user. `fcntl` has the argument of `F_DUPFD`, or another command; a use without
direction is one of those that do not ask for the mode of the file, such as `lseek` and `fsync`. -/
inductive Call (c : Config)
  | openFile (read write : Bool)
  | close (fd : Fin c.nfd)
  | dup (fd : Fin c.nfd)
  | dup2 (fd : Fin c.nfd) (fd2 : Int)
  | fcntl (fd : Fin c.nfd) (dupfd : Option Int)
  | use (fd : Fin c.nfd) (direction : Option Direction)
  deriving DecidableEq, Repr

/-- Who calls `cyg_fd_assign`: `open` for its own object, or a function that holds a reference and drops it next. -/
inductive Assigner
  | openFile
  | dup (r : Result)
  deriving DecidableEq, Repr

/-- Who calls `cyg_fd_free`: `close`, or `open` before it fails, with the object that it frees next. -/
inductive Freer (c : Config)
  | close
  | openFile (file : Option (Fin c.nfile)) (r : Result)
  deriving DecidableEq, Repr

/-- Who calls `cyg_fp_free`: a function about to return, or `close`. -/
inductive Putter (c : Config)
  | ret (r : Result)
  | close (fd : Fin c.nfd)
  deriving DecidableEq, Repr

/-- Where `fp_ucount_dec` returns to. -/
inductive Caller (c : Config)
  | assign (fd : Fin c.nfd) (fp : Fin c.nfile) (who : Assigner)
  | free (fd : Fin c.nfd) (who : Freer c)
  | put (who : Putter c)
  deriving DecidableEq, Repr

/-- Where a thread is. In `dec`, `back` and `store` it has `fdlock`. -/
inductive Point (c : Config)
  | user (r : Result)
  | enter (call : Call c)
  | openAlloc (fd : Fin c.nfd) (read write : Bool)
  | openLookup (fd : Fin c.nfd) (fp : Fin c.nfile) (read write : Bool)
  | openFs (fd : Fin c.nfd) (fp : Fin c.nfile) (read write : Bool)
  | dupAlloc (fp : Fin c.nfile)
  | fcntlAlloc (fp : Fin c.nfile) (low : Int)
  | use (fp : Fin c.nfile) (direction : Option Direction)
  | assign (fd : Fin c.nfd) (fp : Fin c.nfile) (who : Assigner)
  | free (fd : Fin c.nfd) (who : Freer c)
  | put (fp : Fin c.nfile) (who : Putter c)
  | fileFree (fp : Fin c.nfile) (r : Result)
  | dec (fp : Fin c.nfile) (caller : Caller c)
  | foClose (fp : Fin c.nfile) (caller : Caller c)
  | back (caller : Caller c) (error : Option Errno)
  | store (fd : Fin c.nfd) (fp : Fin c.nfile) (who : Assigner)
  deriving DecidableEq, Repr

/-- The descriptors, the file objects, `fdlock` and the threads. `opens` and `closes` count, for each file object,
the successful calls of the file system's `open` and the calls of `fo_close`. -/
structure State (c : Config) (T : Type*) where
  desc : Fin c.nfd → Desc c
  file : Fin c.nfile → File
  fdlock : Option T
  thread : T → Point c
  opens : Fin c.nfile → Nat
  closes : Fin c.nfile → Nat

namespace State
variable {T : Type*} [DecidableEq T] (s : State c T) (t : T)

/-- `cyg_fd_init`. -/
def Start : Prop :=
  (∀ fd, s.desc fd = .null) ∧ (∀ i, s.file i = ⟨false, false, false, 0⟩) ∧ s.fdlock = none ∧
    (∀ t, s.thread t = .user ⟨0, none⟩) ∧ (∀ i, s.opens i = 0) ∧ ∀ i, s.closes i = 0

def goto (p : Point c) : State c T := { s with thread := Function.update s.thread t p }

def setDesc (fd : Fin c.nfd) (d : Desc c) : State c T := { s with desc := Function.update s.desc fd d }

def setFile (i : Fin c.nfile) (f : File) : State c T := { s with file := Function.update s.file i f }

/-- The search of `cyg_fd_alloc`, and that of `cyg_file_alloc`. -/
def freeDesc (low : Nat) : Option (Fin c.nfd) :=
  (List.finRange c.nfd).find? fun fd => low ≤ fd.val ∧ s.desc fd = .null

def freeFile : Option (Fin c.nfile) := (List.finRange c.nfile).find? fun i => (s.file i).alloc = false

/-- `cyg_fp_get`, and the return with `EBADF` if it finds no file. -/
def fpGet (fd : Fin c.nfd) (found : Fin c.nfile → Point c) : State c T :=
  match s.desc fd with
  | .file i => (s.setFile i (s.file i).raise).goto t (found i)
  | _ => s.goto t (.user ⟨-1, some .ebadf⟩)

/-- A call, up to the first point where it leaves `fdlock`. -/
def enter : Call c → State c T
  | .openFile read write =>
    if read = false ∧ write = false then s.goto t (.user ⟨-1, some .einval⟩)
    else
      match s.freeDesc 0 with
      | none => s.goto t (.user ⟨-1, some .emfile⟩)
      | some fd => (s.setDesc fd .allocated).goto t (.openAlloc fd read write)
  | .close fd => s.fpGet t fd fun i => .put i (.close fd)
  | .dup fd => s.fpGet t fd fun i => .dupAlloc i
  | .dup2 fd fd2 =>
    if fd2 = fd.val then s.goto t (.user ⟨fd2, none⟩)
    else if inside : 0 ≤ fd2 ∧ fd2 < c.nfile then
      s.fpGet t fd fun i => .assign ⟨fd2.toNat, by have room := c.room; omega⟩ i (.dup ⟨fd2, none⟩)
    else s.goto t (.user ⟨-1, some .ebadf⟩)
  | .fcntl fd (some fda) =>
    s.fpGet t fd fun i => if 0 ≤ fda ∧ fda < c.nfile then .fcntlAlloc i fda else .put i (.ret ⟨0, some .ebadf⟩)
  | .fcntl fd none => s.fpGet t fd fun i => .put i (.ret ⟨-1, some .enotsup⟩)
  | .use fd direction => s.fpGet t fd fun i => .use i direction

/-- `cyg_file_alloc` in `open`. -/
def openAlloc (fd : Fin c.nfd) (read write : Bool) : State c T :=
  match s.freeFile with
  | none => s.goto t (.free fd (.openFile none ⟨-1, some .enfile⟩))
  | some i => (s.setFile i ⟨true, false, false, 0⟩).goto t (.openLookup fd i read write)

/-- The file system has opened the file and noted its mode. -/
def opened (fd : Fin c.nfd) (i : Fin c.nfile) (read write : Bool) : State c T :=
  { s.setFile i { s.file i with read := read, write := write } with
    opens := Function.update s.opens i (s.opens i + 1) }.goto t (.assign fd i .openFile)

/-- `cyg_fd_alloc` in `dup` and in `fcntl`. -/
def dupAlloc (i : Fin c.nfile) : State c T :=
  match s.freeDesc 0 with
  | none => s.goto t (.user ⟨-1, some .emfile⟩)
  | some fd2 => (s.setDesc fd2 .allocated).goto t (.assign fd2 i (.dup ⟨fd2.val, none⟩))

def fcntlAlloc (i : Fin c.nfile) (low : Int) : State c T :=
  match s.freeDesc low.toNat with
  | none => s.goto t (.put i (.ret ⟨-1, some .emfile⟩))
  | some fd2 => (s.setDesc fd2 .allocated).goto t (.assign fd2 i (.dup ⟨0, none⟩))

/-- `readwritev` and its like: the operation, or `EBADF` if the file has not been opened that way. -/
def permits (i : Fin c.nfile) : Option Direction → Bool
  | none => true
  | some .read => (s.file i).read
  | some .write => (s.file i).write

def use (i : Fin c.nfile) (direction : Option Direction) (reply : Option Errno) : State c T :=
  s.goto t (.put i (.ret (if s.permits i direction then fileioReturn reply else ⟨-1, some .ebadf⟩)))

/-- `fd_close`, up to the call of `fp_ucount_dec`. -/
def fdClose (fd : Fin c.nfd) (caller : Caller c) : State c T :=
  { s.setDesc fd .allocated with fdlock := some t }.goto t
    (match s.desc fd with
    | .file i => .dec i caller
    | _ => .back caller none)

/-- `fp_ucount_dec`, up to the call of `fo_close` or to its end. -/
def dec (i : Fin c.nfile) (caller : Caller c) : State c T :=
  if (s.file i).lower.ucount = 0 then
    { s.setFile i (s.file i).lower with
      fdlock := none, closes := Function.update s.closes i (s.closes i + 1) }.goto t (.foClose i caller)
  else (s.setFile i (s.file i).lower).goto t (.back caller none)

/-- The end of `fp_ucount_dec`, after `fo_close`. -/
def foClose (i : Fin c.nfile) (caller : Caller c) (error : Option Errno) : State c T :=
  { s.setFile i (s.file i).clear with fdlock := some t }.goto t (.back caller error)

/-- What is left of `cyg_fd_assign`, `cyg_fd_free` and `cyg_fp_free`. -/
def back (error : Option Errno) : Caller c → State c T
  | .assign fd i who => (s.setFile i (s.file i).raise).goto t (.store fd i who)
  | .free fd who =>
    { s.setDesc fd .null with fdlock := none }.goto t
      (match who with
      | .close => .user (fileioReturn error)
      | .openFile none r => .user r
      | .openFile (some i) r => .fileFree i r)
  | .put who =>
    { s with fdlock := none }.goto t
      (match who with
      | .ret r => .user r
      | .close fd => .free fd .close)

def store (fd : Fin c.nfd) (i : Fin c.nfile) (who : Assigner) : State c T :=
  { s.setDesc fd (.file i) with fdlock := none }.goto t
    (match who with
    | .openFile => .user ⟨fd.val, none⟩
    | .dup r => .put i (.ret r))

/-- The next step of a thread. `reply` is the error of `cyg_mtab_lookup`, of the file system's `open`, of the
operation or of `fo_close`, where that is what the thread waits for. -/
def advance (reply : Option Errno) : State c T :=
  match s.thread t with
  | .user r => s.goto t (.user r)
  | .enter call => s.enter t call
  | .openAlloc fd read write => s.openAlloc t fd read write
  | .openLookup fd i read write =>
    if reply = none then s.goto t (.openFs fd i read write)
    else s.goto t (.free fd (.openFile (some i) ⟨-1, some .enoent⟩))
  | .openFs fd i read write =>
    match reply with
    | none => s.opened t fd i read write
    | some e => s.goto t (.free fd (.openFile (some i) ⟨-1, some e⟩))
  | .dupAlloc i => s.dupAlloc t i
  | .fcntlAlloc i low => s.fcntlAlloc t i low
  | .use i direction => s.use t i direction reply
  | .assign fd i who => s.fdClose t fd (.assign fd i who)
  | .free fd who => s.fdClose t fd (.free fd who)
  | .put i who => { s with fdlock := some t }.goto t (.dec i (.put who))
  | .fileFree i r => (s.setFile i (s.file i).clear).goto t (.user r)
  | .dec i caller => s.dec t i caller
  | .foClose i caller => s.foClose t i caller reply
  | .back caller error => s.back t error caller
  | .store fd i who => s.store t fd i who

end State

/-- A thread calls a function, or goes on with the one that it is in. -/
inductive Act (c : Config) (T : Type*)
  | call (t : T) (call : Call c)
  | go (t : T) (reply : Option Errno)

/-- Where a thread stands towards `fdlock`: it takes it with its next step, it has it, or it goes without. -/
inductive Standing
  | takes | has | without
  deriving DecidableEq, Repr

def Call.standing : Call c → Standing
  | .openFile read write => if read = false ∧ write = false then .without else .takes
  | .dup2 fd fd2 => if fd2 ≠ fd.val ∧ 0 ≤ fd2 ∧ fd2 < c.nfile then .takes else .without
  | .close _ | .dup _ | .fcntl .. | .use .. => .takes

def Point.standing : Point c → Standing
  | .enter call => call.standing
  | .user _ | .openLookup .. | .openFs .. | .use .. => .without
  | .dec .. | .back .. | .store .. => .has
  | .openAlloc .. | .dupAlloc _ | .fcntlAlloc .. | .assign .. | .free .. | .put .. | .fileFree .. | .foClose .. => .takes

def Point.outside : Point c → Bool
  | .user _ => true
  | _ => false

namespace State
variable {T : Type*} [DecidableEq T]

def act (s : State c T) : Act c T → State c T
  | .call t call => s.goto t (.enter call)
  | .go t reply => s.advance t reply

/-- A thread in user code may call; one inside may go on unless another has the lock that it needs. -/
def Enabled (s : State c T) : Act c T → Prop
  | .call t _ => (s.thread t).outside = true
  | .go t _ => (s.thread t).outside = false ∧ ((s.thread t).standing = .takes → s.fdlock = none)

instance (s : State c T) : ∀ e, Decidable (s.Enabled e)
  | .call _ _ => inferInstanceAs (Decidable (_ = _))
  | .go _ _ => inferInstanceAs (Decidable (_ ∧ (_ → _)))

/-- The machine of all interleavings. -/
def system (c : Config) (T : Type*) [DecidableEq T] : Machine (State c T) := .guided Start Enabled act

end State

end Ecos.Fileio.Fd
