import BaleForGit.Client.BaleLru
import BaleForGit.Client.DiffVfs
import BaleForGit.Client.MountRead
import BaleForGit.Client.PointerTests
import BaleForGit.Client.Smudge
import BaleForGit.Library.Machine

set_option autoImplicit false

/-! # The callbacks of a mount (`mount/backend/libfuse.rs`, `mount/reader.rs`)

libfuse calls back from several threads. A callback is a task here, and between two of its steps other
callbacks run: a step takes one lock, or reads one object, or reconstructs one file. What the
repository does when a blob is read, and the chunk cache and the server, comes with the step
(`Choice`). The trees of the revision are read under the lock of the `DiffVfs`, and alike every time.

The texts of errors go to the log, and the caller gets a number (`Errno`). -/

namespace BaleForGit.Mount

variable {Oid : Type}

/-! ## Callbacks and replies -/

inductive Errno where
  | efault
  | enoent
  | eio
  | eisdir
  | erofs
  | ebadf
  | enotdir
deriving DecidableEq, Repr

/-- The callbacks that begin with `lookup_path`, with what they check of their other arguments: that
    `stbuf` is there, and the flags of the `fuse_file_info`, if that is. -/
inductive PathOp where
  | opGetattr (stbuf : Bool)
  | opOpen (flags : Option UInt32)
  | opReaddir
deriving DecidableEq, Repr

/-- A callback. A path is what `cstr_to_path` makes of it; `fh` is the handle in the
    `fuse_file_info`. -/
inductive Request where
  | onPath (op : PathOp) (path : Option String)
  | opRead (buf : Bool) (fh : Option Nat) (size offset : Nat)
  | opRelease (fh : Option Nat)
deriving DecidableEq, Repr

/-- What `op_getattr` fills in. -/
structure Attr where
  stIno : Nat
  stMode : Nat
  stNlink : Nat
  stSize : Int
deriving DecidableEq, Repr

inductive Reply where
  | failed (e : Errno)
  | attr (a : Attr)
  | opened (fh : Nat)
  | data (bytes : List UInt8)
  | released
  | listing (names : List String)
deriving DecidableEq, Repr

/-- `S_IFDIR | 0o555`. -/
def dirMode : Nat := 0o040555

/-- `S_IFREG | 0o444`. -/
def fileMode : Nat := 0o100444

/-- `O_ACCMODE`; `O_RDONLY` is 0. -/
def oAccmode : UInt32 := 3

/-- `n as off_t`. -/
def asOffT (n : Nat) : Int := Int.bmod n 18446744073709551616

def dirAttr (inode : Nat) : Attr := ⟨inode, dirMode, 2, 0⟩

def fileAttr (inode size : Nat) : Attr := ⟨inode, fileMode, 1, asOffT size⟩

/-! ## Reconstruction -/

/-- `PLAIN_BLOB_MAX_BYTES`. -/
def plainBlobMaxBytes : Nat := 16 * 1024 * 1024

/-- What `reconstruct_bale_to_tempfile` finds, in order, and what becomes of its file afterwards; an
    error is its text. -/
structure ReconstructEnv where
  gitDir : Bool
  tempFile : Option String
  /-- `manifest_cache::load`. -/
  manifest : Except String (Option (List CachedTerm))
  hotReopen : Option String
  /-- The chunk cache at the term with an index. -/
  cacheRead : Nat → CachedTerm → CacheRead
  truncate : Option String
  /-- `resolved_cfg`, `build_translator_config` and the session. -/
  auth : Option String
  cold : Download
  /-- The file is read back, or opened again. -/
  readBack : Option String

section Reconstruct

variable (env : ReconstructEnv)

/-- What the chunk cache has of the file, by the terms of the cached manifest. -/
def reconstructHot (fileSize : Nat) : Except String (Option (List UInt8)) :=
  if !env.gitDir then .ok none
  else match env.manifest with
    | .error text => .error text
    | .ok none => .ok none
    | .ok (some terms) =>
      match env.hotReopen with
      | some text => .error text
      | none =>
        match reconstructTerms env.cacheRead fileSize 0 [] terms with
        | (.error text, _) => .error text
        | (.ok .miss, _) => .ok none
        | (.ok (.wrote _), written) => .ok (some written)

/-- The download, into the file that has been cut to nothing. -/
def reconstructCold (fileSize : Nat) : Except String (List UInt8) :=
  match env.truncate with
  | some text => .error text
  | none =>
    match env.auth with
    | some text => .error text
    | none =>
      match env.cold.error with
      | some text => .error text
      | none => .ok (env.cold.bytes.take fileSize)

/-- The bytes of the temporary file. Afterwards the manifest may be kept for the next mount. -/
def reconstructBaleToTempfile (info : XetFileInfo) : Except String (List UInt8) :=
  match info.fileSize with
  | none => .error "bale pointer missing file_size"
  | some fileSize =>
    if !is64LowerHex info.hash then
      .error ("bale pointer hash is not canonical hex (got " ++ toString info.hash.utf8ByteSize ++
        " chars)")
    else match env.tempFile with
      | some text => .error text
      | none =>
        match reconstructHot env fileSize with
        | .error text => .error text
        | .ok (some written) => .ok written
        | .ok none => reconstructCold env fileSize

end Reconstruct

/-! ## Sessions -/

/-- An object of the repository: its kind and its data. -/
structure GitObject where
  kind : ObjectKind
  data : List UInt8
deriving DecidableEq, Repr

/-- The revision that is mounted, and what `find_object` and `serde_json` give. -/
structure Mounted (Oid : Type) where
  ctx : LazyContext Oid
  rootTree : Oid
  object : Oid → Option GitObject
  fromStr : String → Option XetFileInfo
  showOid : Oid → String

/-- What is not the program's: a blob cannot be read just now, a file is reconstructed in some
    environment, and a positional read fails or gets as far as it does. -/
structure Choice where
  objectFault : Bool
  env : ReconstructEnv
  preadFault : Bool
  os : ∀ content, OsRead content

/-- The `DiffVfs` and the `Reader`, each field behind its lock. -/
structure Shared (Oid : Type) where
  vfs : VfsState Oid
  sizeCache : Oid → Option Nat
  plainCache : Oid → Option (List UInt8)
  baleCache : BaleLru
  handles : Nat → Option HandleData
  nextHandle : Nat

/-- How far a callback is. -/
inductive Phase (Oid : Type) where
  | begin
  | walk (op : PathOp) (node : Node Oid) (rest : List String)
  | sizeLookup (inode : Nat) (oid : Oid)
  | sizeObject (inode : Nat) (oid : Oid)
  | sizeInsert (inode : Nat) (oid : Oid) (size : Nat)
  | plainLookup (oid : Oid)
  | loadBlob (oid : Oid)
  | plainInsert (oid : Oid) (data : List UInt8)
  | baleLookup (info : XetFileInfo)
  | reconstruct (info : XetFileInfo) (fileSize : Nat)
  | balePut (info : XetFileInfo) (bytes : List UInt8)
  | claim (data : HandleData)
  | insert (data : HandleData) (fh : Nat)
  | pread (data : HandleData) (size offset : Nat)
  | list (inode : Nat)
  | done (reply : Reply)

structure Task (Oid : Type) where
  request : Request
  phase : Phase Oid

structure Session (Oid : Type) where
  shared : Shared Oid
  tasks : List (Task Oid)

section Session

variable (m : Mounted Oid)

/-- `Reader::new`, and the root that is looked into before the mount. -/
def start : Session Oid where
  shared :=
    { vfs := (readdir m.ctx (buildSingleLazy m.rootTree) rootInode).1
      sizeCache := fun _ => none
      plainCache := fun _ => none
      baleCache := BaleLru.new baleLruBudgetBytes
      handles := fun _ => none
      nextHandle := 0 }
  tasks := []

/-- `find_object`, and the test that it is a blob. -/
def findBlob (ch : Choice) (oid : Oid) : Option (List UInt8) :=
  if ch.objectFault then none
  else match m.object oid with
    | none => none
    | some obj => if obj.kind ≠ .blob then none else some obj.data

/-- What a callback does with the node it has found. -/
def PathOp.arrive (op : PathOp) (node : Node Oid) : Phase Oid :=
  match op, node.kind with
  | .opGetattr _, .dir => .done (.attr (dirAttr node.inode))
  | .opGetattr _, .file _ oid => .sizeLookup node.inode oid
  | .opOpen _, .dir => .done (.failed .eisdir)
  | .opOpen none, .file _ _ => .done (.failed .eio)
  | .opOpen (some flags), .file _ oid =>
    if flags &&& oAccmode ≠ 0 then .done (.failed .erofs) else .plainLookup oid
  | .opReaddir, .dir => .list node.inode
  | .opReaddir, .file _ _ => .done (.failed .enotdir)

/-- The first step of a callback. -/
def beginStep (s : Shared Oid) : Request → Shared Oid × Phase Oid
  | .onPath op path =>
    if op = .opGetattr false then (s, .done (.failed .efault))
    else match path with
      | none => (s, .done (.failed .enoent))
      | some p =>
        match lookupByInode s.vfs rootInode with
        | none => (s, .done (.failed .enoent))
        | some root => (s, .walk op root (pathComponents p))
  | .opRead buf fh size offset =>
    if !buf then (s, .done (.failed .efault))
    else match fh with
      | none => (s, .done (.failed .ebadf))
      | some fh =>
        if fh = 0 then (s, .done (.failed .ebadf))
        else match s.handles fh with
          -- the caller of `pread` does not tell this from other errors
          | none => (s, .done (.failed .eio))
          | some data => (s, .pread data size offset)
  | .opRelease none => (s, .done .released)
  | .opRelease (some fh) =>
    if fh = 0 then (s, .done .released)
    else ({ s with handles := Function.update s.handles fh none }, .done .released)

variable [DecidableEq Oid]

/-- The other steps; a callback that has replied takes none. A read whose end does not fit a `usize`
    panics, and the process with it. -/
def phaseStep (ch : Choice) (s : Shared Oid) : Phase Oid → Option (Shared Oid × Phase Oid)
  | .begin => none
  | .walk op node [] => some (s, op.arrive node)
  | .walk op node (name :: rest) =>
    match lookupChild m.ctx s.vfs node.inode name with
    | (vfs, none) => some ({ s with vfs := vfs }, .done (.failed .enoent))
    | (vfs, some child) => some ({ s with vfs := vfs }, .walk op child rest)
  | .sizeLookup inode oid =>
    match s.sizeCache oid with
    | some size => some (s, .done (.attr (fileAttr inode size)))
    | none => some (s, .sizeObject inode oid)
  | .sizeObject inode oid =>
    match findBlob m ch oid with
    | none => some (s, .done (.failed .eio))
    | some data =>
      match sizeOf m.fromStr (m.showOid oid) data with
      | .error _ => some (s, .done (.failed .eio))
      | .ok size => some (s, .sizeInsert inode oid size)
  | .sizeInsert inode oid size =>
    some ({ s with sizeCache := Function.update s.sizeCache oid (some size) },
      .done (.attr (fileAttr inode size)))
  | .plainLookup oid =>
    match s.plainCache oid with
    | some data => some (s, .claim (.bytes data))
    | none => some (s, .loadBlob oid)
  | .loadBlob oid =>
    match findBlob m ch oid with
    | none => some (s, .done (.failed .eio))
    | some data =>
      match mountPointer m.fromStr data with
      | some info => some (s, .baleLookup info)
      | none =>
        if data.length > plainBlobMaxBytes then some (s, .done (.failed .eio))
        else some (s, .plainInsert oid data)
  | .plainInsert oid data =>
    some ({ s with plainCache := Function.update s.plainCache oid (some data) },
      .claim (.bytes data))
  | .baleLookup info =>
    match s.baleCache.get info.hash with
    | (some bytes, lru) => some ({ s with baleCache := lru }, .claim (.bytes bytes))
    | (none, lru) =>
      match info.fileSize with
      | none => some ({ s with baleCache := lru }, .done (.failed .eio))
      | some fileSize => some ({ s with baleCache := lru }, .reconstruct info fileSize)
  | .reconstruct info fileSize =>
    match reconstructBaleToTempfile ch.env info with
    | .error _ => some (s, .done (.failed .eio))
    | .ok content =>
      match ch.env.readBack with
      | some _ => some (s, .done (.failed .eio))
      | none =>
        if fileSize ≤ baleLruBudgetBytes then some (s, .balePut info content)
        else some (s, .claim (.tempfile content fileSize))
  | .balePut info bytes =>
    some ({ s with baleCache := s.baleCache.put info.hash bytes }, .claim (.bytes bytes))
  | .claim data =>
    let id := (s.nextHandle + 1) % usizeBound
    some ({ s with nextHandle := id }, .insert data id)
  | .insert data fh =>
    some ({ s with handles := Function.update s.handles fh (some data) }, .done (.opened fh))
  | .pread data size offset =>
    match data, ch.preadFault with
    | .tempfile _ _, true => some (s, .done (.failed .eio))
    | data, _ =>
      match data.read (ch.os data.content) offset size with
      | .error _ => none
      | .ok bytes => some (s, .done (.data bytes))
  | .list inode =>
    match readdir m.ctx s.vfs inode with
    | (vfs, none) => some ({ s with vfs := vfs }, .done (.listing [".", ".."]))
    | (vfs, some children) =>
      -- `CString::new` refuses a name with a zero byte
      some ({ s with vfs := vfs }, .done (.listing ("." :: ".." ::
        (children.map Prod.fst).filter (fun name => '\x00' ∉ name.toList))))
  | .done _ => none

inductive Act where
  | ask (request : Request)
  | step (k : Nat) (ch : Choice)

/-- The step of a task. -/
def Task.step (ch : Choice) (s : Shared Oid) (t : Task Oid) : Option (Shared Oid × Phase Oid) :=
  match t.phase with
  | .begin => some (beginStep s t.request)
  | phase => phaseStep m ch s phase

def sessionStep (s : Session Oid) : Act → Option (Session Oid)
  | .ask request => some { s with tasks := s.tasks ++ [⟨request, .begin⟩] }
  | .step k ch =>
    match s.tasks[k]? with
    | none => none
    | some t =>
      match t.step m ch s.shared with
      | none => none
      | some (shared, phase) => some ⟨shared, s.tasks.set k ⟨t.request, phase⟩⟩

end Session

end BaleForGit.Mount
