import BaleForGit.Library.Disk
import BaleForGit.Library.Hex
import BaleForGit.Library.Machine
import BaleForGit.Server.UploadShard

set_option autoImplicit false

/-! # The blob store on a file system (`bale-server-storage-fs`)

Any number of puts and reads at once, each a few file system calls, in every interleaving, with every
call failing when it pleases and the machine going down in between. A put writes a file of its own in
`tmp`, syncs it and moves it to the path of its hash; a request that is dropped is one that takes no
more steps. Besides the files, `Site` keeps which puts were asked for and which had their directory
synced.

The file handle of a put buffers its writes. A write that goes wrong later on is taken to be reported
by the next write or by the sync, so that no sync succeeds over a write that was lost. -/

namespace BaleForGit.Server.FsStore

/-! ## Paths -/

inductive BlobKind where
  | xorbs
  | shards
deriving DecidableEq, Repr

def BlobKind.dir : BlobKind → String
  | .xorbs => "xorbs"
  | .shards => "shards"

/-- What a blob is stored under. -/
structure BlobName where
  kind : BlobKind
  hash : Hash32
deriving DecidableEq

/-- A path below the root of the store. -/
abbrev Path := List String

abbrev FileSystem := Disk.State String UInt8

/-- `FsBlobStore::fanout`. -/
def fanout (name : BlobName) : Path :=
  let hex := name.hash.debug
  let aa := String.ofList (hex.toList.take 2)
  let bb := String.ofList ((hex.toList.drop 2).take 2)
  [name.kind.dir, aa, bb, hex]

def tmpPath (uuid : String) : Path := ["tmp", uuid]

/-! ## `write_atomic` -/

structure Put where
  name : BlobName
  body : List UInt8
deriving DecidableEq

/-- Where a put stands, by the call that is next. -/
inductive PutPhase where
  | stat
  | mkdir
  | create
  | write (tmp : Path) (inode : Nat) (rest : List UInt8)
  | sync (tmp : Path) (inode : Nat)
  | rename (tmp : Path) (inode : Nat)
  /-- The `metadata` of the destination, after a `rename` that failed. -/
  | recheck (tmp : Path) (inode : Nat) (e : String)
  | syncDir
  | removeTmp (tmp : Path) (inode : Nat) (answer : CoreResult Bool)
  | done (answer : CoreResult Bool)
deriving DecidableEq

structure Writer where
  put : Put
  phase : PutPhase
deriving DecidableEq

/-- What the system has a say in: whether the call fails, and with what; how far it got; the name
    that `Uuid::new_v4` gives. -/
structure Choice where
  fault : Option String
  count : Nat
  uuid : String

section Put

variable (display : Path → String)

/-- One call of `write_atomic`. -/
def Writer.next (fs : FileSystem) (w : Writer) (c : Choice) : FileSystem × PutPhase :=
  let dst := fanout w.put.name
  let parent := dst.dropLast
  match w.phase with
  | .stat =>
    -- `metadata(dst).is_ok()`: whatever goes wrong, the file is taken to be missing
    if c.fault.isNone && (fs.entries dst).isSome then (fs, .done (.ok false)) else (fs, .mkdir)
  | .mkdir =>
    let failed (e : String) := PutPhase.done (.error (.internal ("mkdir " ++ display parent ++ ": " ++ e)))
    match c.fault with
    | some e => ((Disk.mkdirAll fs (parent.take c.count)).getD fs, failed e)
    | none =>
      match Disk.mkdirAll fs parent with
      | some fs' => (fs', .create)
      | none => (fs, failed "Not a directory (os error 20)")
  | .create =>
    let tmp := tmpPath c.uuid
    match c.fault with
    | some e => (fs, .done (.error (.internal ("create tmp: " ++ e))))
    | none =>
      match Disk.createNew fs tmp with
      | some (fs', i) => (fs', .write tmp i w.put.body)
      | none => (fs, .done (.error (.internal "create tmp: File exists (os error 17)")))
  | .write tmp i rest =>
    let fs' := Disk.append fs i (rest.take c.count)
    match c.fault with
    | some e => (fs', .removeTmp tmp i (.error (.internal ("write tmp: " ++ e))))
    | none =>
      if rest.drop c.count = [] then (fs', .sync tmp i)
      else (fs', .write tmp i (rest.drop c.count))
  | .sync tmp i =>
    match c.fault with
    | some e => (fs, .removeTmp tmp i (.error (.internal ("write tmp: " ++ e))))
    | none => (Disk.sync fs i, .rename tmp i)
  | .rename tmp i =>
    match c.fault with
    | some e => (fs, .recheck tmp i e)
    | none =>
      match Disk.rename fs tmp dst with
      | some fs' => (fs', .syncDir)
      | none => (fs, .recheck tmp i "No such file or directory (os error 2)")
  | .recheck tmp i e =>
    if c.fault.isNone && (fs.entries dst).isSome then (fs, .removeTmp tmp i (.ok false))
    else (fs, .removeTmp tmp i
      (.error (.internal ("rename to " ++ display dst ++ ": " ++ e))))
  | .syncDir =>
    -- `let _ = dir.sync_all()`: the answer is the same
    match c.fault with
    | some _ => (fs, .done (.ok true))
    | none => (Disk.syncDir fs parent, .done (.ok true))
  | .removeTmp tmp _ answer =>
    match c.fault with
    | some _ => (fs, .done answer)
    | none => ((Disk.remove fs tmp).getD fs, .done answer)
  | .done answer => (fs, .done answer)

end Put

/-! ## Reads -/

/-- `get_xorb_range` of a range, `get_shard` of the whole. -/
inductive Want where
  | range (start stop : Nat)
  | whole
deriving DecidableEq

inductive GetPhase where
  | opening
  | stat (inode : Nat)
  | seek (inode stop : Nat)
  | read (inode stop : Nat)
  | readAll (inode : Nat)
  | done (answer : CoreResult (List UInt8))
deriving DecidableEq

structure Reader where
  name : BlobName
  want : Want
  phase : GetPhase
deriving DecidableEq

def Want.label : Want → String
  | .range _ _ => "open xorb: "
  | .whole => "read shard: "

/-- The first check is made before anything is opened. -/
def Reader.start (name : BlobName) (want : Want) : Reader :=
  match want with
  | .range start stop =>
    if stop < start then ⟨name, want, .done (.error (.badRequest "inverted byte range"))⟩
    else ⟨name, want, .opening⟩
  | .whole => ⟨name, want, .opening⟩

/-- One call of `get_xorb_range` or `get_shard`. -/
def Reader.next (fs : FileSystem) (r : Reader) (c : Choice) : GetPhase :=
  let failed (label e : String) := GetPhase.done (.error (.internal (label ++ e)))
  match r.phase with
  | .opening =>
    match c.fault with
    | some e => failed r.want.label e
    | none =>
      match fs.entries (fanout r.name) with
      | none => .done (.error .notFound)
      | some .dir => failed r.want.label "Is a directory (os error 21)"
      | some (.file i) =>
        match r.want with
        | .range _ _ => .stat i
        | .whole => .readAll i
  | .stat i =>
    match c.fault, r.want with
    | some e, _ => failed "stat xorb: " e
    | none, .range start stop =>
      let len := (fs.inodes i).data.length
      if start > len then .done (.error (.badRequest "range start past end"))
      else .seek i (min stop len)
    | none, .whole => .readAll i
  | .seek i stop =>
    match c.fault with
    | some e => failed "seek xorb: " e
    | none => .read i stop
  | .read i stop =>
    match c.fault, r.want with
    | some e, _ => failed "read xorb: " e
    | none, .range start _ =>
      let data := (fs.inodes i).data
      if data.length < stop then failed "read xorb: " "early eof"
      else .done (.ok ((data.take stop).drop start))
    | none, .whole => .readAll i
  | .readAll i =>
    match c.fault with
    | some e => failed "read shard: " e
    | none => .done (.ok (fs.inodes i).data)
  | .done answer => .done answer

/-! ## The store -/

structure Site where
  fs : FileSystem
  writers : List Writer
  readers : List Reader
  /-- Every put that was begun. -/
  asked : List Put
  /-- The names of the puts whose directory was synced, since the last crash that lost one. -/
  kept : List BlobName

/-- `FsBlobStore::open`. -/
def openStore (fs : FileSystem) : FileSystem :=
  ["xorbs", "shards", "tmp"].foldl (fun fs sub => (Disk.mkdirAll fs [sub]).getD fs) fs

def Site.opened : Site := ⟨openStore Disk.State.empty, [], [], [], []⟩

inductive Act where
  | put (p : Put)
  | get (name : BlobName) (want : Want)
  | write (w : Nat) (c : Choice)
  | read (r : Nat) (c : Choice)
  /-- The machine goes down, and the server starts again. -/
  | crash (back : List (Path × Option Disk.Node)) (lost : Nat → List UInt8)

/-- The sync of the directory went through. -/
def keep (w : Writer) (c : Choice) (kept : List BlobName) : List BlobName :=
  if w.phase = .syncDir ∧ c.fault = none then w.put.name :: kept else kept

def step (display : Path → String) (s : Site) : Act → Option Site
  | .put p => some { s with writers := s.writers ++ [⟨p, .stat⟩], asked := p :: s.asked }
  | .get name want => some { s with readers := s.readers ++ [Reader.start name want] }
  | .write k c =>
    match s.writers[k]? with
    | none => none
    | some w =>
      let (fs, phase) := w.next display s.fs c
      some { s with
        fs := fs
        writers := s.writers.set k { w with phase := phase }
        kept := keep w c s.kept }
  | .read k c =>
    match s.readers[k]? with
    | none => none
    | some r => some { s with readers := s.readers.set k { r with phase := r.next s.fs c } }
  | .crash back lost =>
    match Disk.crash s.fs back lost with
    | none => none
    | some fs => some
      { fs := openStore fs
        writers := []
        readers := []
        asked := s.asked
        kept := if back.all (fun e => decide (s.fs.entries e.1 ≠ some .dir)) then s.kept else [] }

end BaleForGit.Server.FsStore
