import BaleForGit.Client.PktLine

set_option autoImplicit false

/-! # The filter process (`filter_process.rs`)

Git keeps one process for all files of a command and sends it one request after the other: a list of
header lines and the content. `serveOne` is one round of the loop in `run`, from where the reader
stands; `loopStep` is the loop.

What a request comes to inside, in the stores and caches and on the network, is `RequestEnv`: it
answers with a pointer or a temporary file, fails with the text of its error chain, or panics. What
is modelled is what the requests do to the two streams. The handlers write to git only after
everything that can fail has been done, but for the reading of the temporary file in
`finish_smudge`. Writing to git does not fail. -/

namespace BaleForGit

/-- `SMUDGE_PAYLOAD_CAP`. -/
def smudgePayloadCap : Nat := pointerMaxBytes + 4096

/-- `CLEAN_PAYLOAD_CAP`. -/
def cleanPayloadCap : Nat := 128 * 1024 * 1024 * 1024

/-- `DRAIN_PAYLOAD_CAP`. -/
def drainPayloadCap : Nat := 64 * 1024 * 1024

/-! ## Sessions -/

/-- An error that is passed on with its text, as `{e:#}` prints it, or a panic. -/
inductive Halt where
  | error (text : String)
  | panic
deriving DecidableEq, Repr

/-- The two streams, and whether the xet runtime has been started (`rt_slot`). -/
structure Wire where
  input : List UInt8
  output : List UInt8
  runtime : Bool
deriving DecidableEq, Repr

/-- What talks to git. The streams stay where an error left them. -/
def Session (α : Type) : Type := Wire → Except Halt α × Wire

instance : Monad Session where
  pure a := fun w => (.ok a, w)
  bind x f := fun w =>
    match x w with
    | (.error e, w') => (.error e, w')
    | (.ok a, w') => f a w'

def ReadError.text : ReadError → String
  | .unexpectedEof => "failed to fill whole buffer"
  | .invalidData text => text

namespace Session

def fail {α : Type} (h : Halt) : Session α := fun w => (.error h, w)

def read {α : Type} (r : PktReader α) : Session α := fun w =>
  match r w.input with
  | (.ok a, rest) => (.ok a, { w with input := rest })
  | (.error e, rest) => (.error (.error e.text), { w with input := rest })

def emit (ps : List Packet) : Session Unit := fun w =>
  (.ok (), { w with output := w.output ++ encodePackets ps })

/-- An answer of the environment. -/
def answer {α : Type} : Except Halt α → Session α
  | .ok a => pure a
  | .error h => fail h

/-! ## Writing -/

def flushPacket : Session Unit := emit [.flush]

def writeText (line : String) : Session Unit :=
  match textPacket line with
  | .error text => fail (.error text)
  | .ok p => emit [p]

def writeTextList : List String → Session Unit
  | [] => flushPacket
  | line :: lines => do
    writeText line
    writeTextList lines

def writeAllThenFlush (bytes : List UInt8) : Session Unit := do
  emit (writeBinary bytes)
  flushPacket

end Session

/-! ## What the environment decides -/

inductive CleanPayload where
  | inMemory (bytes : List UInt8)
  | spilled (bytes : List UInt8)
deriving DecidableEq, Repr

inductive CacheAnswer where
  | miss
  | hit (pointer : String)
  | panic
deriving DecidableEq, Repr

/-- What happens to a clean request: the temporary file of a large payload at its packets (an error
    text, or it goes well) and when it is flushed, and then the steps of `do_clean` in order. -/
structure CleanEnv where
  spill : Nat → Option String
  spillFlush : Option String
  gitDir : Bool
  storeRoot : Option String
  lookup : CleanPayload → CacheAnswer
  lock : Option String
  /-- `handle_clean` or `handle_clean_in_memory`, up to the response. -/
  staged : CleanPayload → Except Halt String

/-- The reconstructed file, as `finish_smudge` reads it. -/
structure TmpFile where
  openError : Option String
  reads : List (List UInt8)
  readError : Option String
  reads_le : ∀ r ∈ reads, r ≠ [] ∧ r.length ≤ maxPktPayload

structure RequestEnv where
  clean : CleanEnv
  /-- `handle_smudge` on a payload, up to `finish_smudge`. -/
  reconstruct : List UInt8 → Except Halt TmpFile
  /-- `XetRuntime::new`. -/
  runtime : Option String

/-! ## Handlers -/

namespace Session

/-- `ensure_runtime`. -/
def ensureRuntime (env : RequestEnv) : Session Unit := fun w =>
  if w.runtime then (.ok (), w)
  else match env.runtime with
    | some text => (.error (.error text), w)
    | none => (.ok (), { w with runtime := true })

/-- The loop of `drain_clean_payload`, from the packet with index `i` on. -/
def drainLoop (env : CleanEnv) (maxInline : Nat) :
    Nat → Nat → List UInt8 → Option (List UInt8) → Nat → Session CleanPayload
  | 0, _, _, _, _ => fail (.error ReadError.unexpectedEof.text)
  | rounds + 1, i, buf, spilled, total => do
    match ← read readPacket with
    | .flush =>
      match spilled with
      | none => return .inMemory buf
      | some file =>
        match env.spillFlush with
        | some text => fail (.error text)
        | none => return .spilled file
    | .data bytes =>
      if total + bytes.length > cleanPayloadCap then
        fail (.error ("pkt-line payload exceeded cap of " ++ toString cleanPayloadCap ++ " bytes"))
      else match spilled with
        | some file =>
          match env.spill i with
          | some text => fail (.error text)
          | none =>
            drainLoop env maxInline rounds (i + 1) buf (some (file ++ bytes)) (total + bytes.length)
        | none =>
          if buf.length + bytes.length > maxInline then
            match env.spill i with
            | some text => fail (.error text)
            | none =>
              drainLoop env maxInline rounds (i + 1) [] (some (buf ++ bytes)) (total + bytes.length)
          else
            drainLoop env maxInline rounds (i + 1) (buf ++ bytes) none (total + bytes.length)
    | other =>
      fail (.error ("expected pkt-line data or flush in clean payload, got " ++ other.debug))

/-- `drain_clean_payload`. -/
def drainCleanPayload (env : CleanEnv) (maxInline : Nat) : Session CleanPayload := fun w =>
  drainLoop env maxInline (w.input.length + 1) 0 [] none 0 w

/-- The pointer that `do_clean` answers a drained payload with: from the cache, under the store lock,
    or from a full clean, for which the runtime is started. -/
def answerClean (env : RequestEnv) (payload : CleanPayload) : Session String := do
  if env.clean.gitDir = false then
    fail (.error "clean: cannot stage upload — no git directory resolved from cwd")
  else match env.clean.storeRoot with
    | some text => fail (.error text)
    | none =>
      match env.clean.lookup payload with
      | .panic => fail .panic
      | .hit pointer =>
        match env.clean.lock with
        | some text => fail (.error text)
        | none => return pointer
      | .miss => do
        ensureRuntime env
        match env.clean.lock with
        | some text => fail (.error text)
        | none => answer (env.clean.staged payload)

def doClean (env : RequestEnv) (maxInline : Nat) : Session Unit := do
  let payload ← drainCleanPayload env.clean maxInline
  let pointer ← answerClean env payload
  writeTextList ["status=success"]
  writeAllThenFlush (asBytes pointer)
  writeTextList ["status=success"]

def finishSmudge (tmp : TmpFile) : Session Unit := do
  writeTextList ["status=success"]
  match tmp.openError with
  | some text => fail (.error text)
  | none => do
    emit (tmp.reads.flatMap writeBinary)
    match tmp.readError with
    | some text => fail (.error text)
    | none => do
      flushPacket
      writeTextList ["status=success"]

def handleSmudge (env : RequestEnv) : Session Unit := do
  let pointerBuf ← read (readBinaryTo smudgePayloadCap)
  let tmp ← answer (env.reconstruct pointerBuf)
  finishSmudge tmp

/-- `drain_payload`. -/
def drainPayload : Session Unit := do
  let _ ← read (readBinaryTo drainPayloadCap)
  return ()

def errorLine (op text : String) : String := "error=" ++ op ++ " failed: " ++ text

/-- `report_request_error`: the list has its flush already when the second one is written. -/
def reportRequestError (op text : String) : Session Unit := do
  writeTextList ["status=error", errorLine op text]
  flushPacket

/-- `if let Err(e) = handler { report_request_error(..)?; }`. -/
def reporting (op : String) (handler : Session Unit) : Session Unit := fun w =>
  match handler w with
  | (.error (.error text), w') => reportRequestError op text w'
  | res => res

def unknownLine (command : String) : String := "error=unknown command \"" ++ command ++ "\""

end Session

/-! ## The loop -/

/-- `split_once('=')`. -/
def splitOnce (line : String) : Option (String × String) :=
  let key := line.toList.takeWhile (fun c => decide (c ≠ '='))
  if '=' ∈ line.toList then
    some (String.ofList key, String.ofList (line.toList.drop (key.length + 1)))
  else none

def parseHeaders (lines : List String) : List (String × String) := lines.filterMap splitOnce

/-- The command of a header list, `""` when it has none. -/
def commandOf (lines : List String) : String :=
  match (parseHeaders lines).find? (fun kv => kv.1 == "command") with
  | some kv => kv.2
  | none => ""

namespace Session

/-- A command, on the payload that follows. -/
def dispatch (env : RequestEnv) (maxInline : Nat) (command : String) : Session Unit :=
  if command = "clean" then reporting "clean" (doClean env maxInline)
  else if command = "smudge" then do
    ensureRuntime env
    reporting "smudge" (handleSmudge env)
  else do
    drainPayload
    writeTextList ["status=error", unknownLine command]
    flushPacket

/-- One round of the loop: the header lines it served, or `none` at the end of the session. -/
def serveOne (env : RequestEnv) (maxInline : Nat) : Session (Option (List String)) := fun w =>
  match readTextList w.input with
  | (.error .unexpectedEof, rest) => (.ok none, { w with input := rest })
  | (.error e, rest) => (.error (.error e.text), { w with input := rest })
  | (.ok lines, rest) =>
    if lines.isEmpty then (.ok none, { w with input := rest })
    else (dispatch env maxInline (commandOf lines) >>= fun _ => pure (some lines))
      { w with input := rest }

end Session

/-- The process: the streams, the header lists it has served, and how it has exited. -/
structure FilterProcess where
  wire : Wire
  log : List (List String)
  exit : Option (Except Halt Unit)

/-- It begins after the handshake. -/
def FilterProcess.start (input : List UInt8) : FilterProcess := ⟨⟨input, [], false⟩, [], none⟩

def loopStep (maxInline : Nat) (s : FilterProcess) (env : RequestEnv) : Option FilterProcess :=
  if s.exit.isSome then none
  else match Session.serveOne env maxInline s.wire with
    | (.ok (some lines), w) => some ⟨w, s.log ++ [lines], none⟩
    | (.ok none, w) => some ⟨w, s.log, some (.ok ())⟩
    | (.error h, w) => some ⟨w, s.log, some (.error h)⟩

/-! ## Requests -/

/-- A request as git sends it: header lines, and a payload of any number of packets. -/
structure FilterRequest where
  headers : List (List UInt8)
  payload : List (List UInt8)
  headers_ne : headers ≠ []
  headers_le : ∀ l ∈ headers, l.length ≤ maxPktPayload
  payload_le : ∀ c ∈ payload, c.length ≤ maxPktPayload

namespace FilterRequest

def encode (r : FilterRequest) : List UInt8 :=
  encodePackets (payloadPackets r.headers) ++ encodePackets (payloadPackets r.payload)

/-- The header lines, if they are UTF-8. -/
def lines (r : FilterRequest) : Option (List String) := decodeLines r.headers

def size (r : FilterRequest) : Nat := r.payload.flatten.length

end FilterRequest

def encodeRequests (rs : List FilterRequest) : List UInt8 := rs.flatMap FilterRequest.encode

end BaleForGit
