import BaleForGit.Client.FilterProcess

set_option autoImplicit false

/-! # What one request does to the streams

A handler reads the payload, comes to a result, and has written some packets by then; if the result
is an error, the report is written behind them. The lemmas here say for each command where the
reader stands afterwards and which packets were written, in terms of what the environment
answers. -/

namespace BaleForGit

/-- The wire after some packets were written. -/
def Wire.wrote (w : Wire) (ps : List Packet) : Wire :=
  { w with output := w.output ++ encodePackets ps }

theorem Wire.wrote_wrote (w : Wire) (ps qs : List Packet) :
    (w.wrote ps).wrote qs = w.wrote (ps ++ qs) := by
  simp [Wire.wrote, encodePackets_append]

@[simp] theorem Wire.wrote_nil (w : Wire) : w.wrote [] = w := by
  simp [Wire.wrote, encodePackets]

namespace Session

theorem bind_ok {α β : Type} {x : Session α} {f : α → Session β} {w w' : Wire} {a : α}
    (h : x w = (.ok a, w')) : (x >>= f) w = f a w' := by
  simp only [bind, h]

theorem bind_error {α β : Type} {x : Session α} {f : α → Session β} {w w' : Wire} {e : Halt}
    (h : x w = (.error e, w')) : (x >>= f) w = (.error e, w') := by
  simp only [bind, h]

/-! ## Writing -/

theorem emit_apply (ps : List Packet) (w : Wire) : emit ps w = (.ok (), w.wrote ps) := rfl

end Session

/-- `status=success`, as a packet. -/
def successPacket : Packet := .data (asBytes "status=success" ++ [10])

/-- `status=error`, as a packet. -/
def errorPacket : Packet := .data (asBytes "status=error" ++ [10])

/-- The packet of a line that fits one. -/
def linePacket (line : String) : Packet := .data (asBytes line ++ [10])

/-- A line fits a packet, with its newline. -/
def LineFits (line : String) : Prop := (asBytes line).length + 1 ≤ maxPktPayload

instance (line : String) : Decidable (LineFits line) :=
  inferInstanceAs (Decidable (_ ≤ _))

theorem textPacket_of_fits {line : String} (h : LineFits line) :
    textPacket line = .ok (linePacket line) := by
  unfold textPacket
  rw [if_neg (Nat.not_lt.2 h)]
  rfl

namespace Session

theorem writeText_of_fits {line : String} (h : LineFits line) (w : Wire) :
    writeText line w = (.ok (), w.wrote [linePacket line]) := by
  unfold writeText
  rw [textPacket_of_fits h]
  rfl

theorem writeText_of_long {line : String} (h : ¬ LineFits line) (w : Wire) :
    writeText line w = (.error (.error "pkt-line text exceeds 65516 bytes"), w) := by
  unfold writeText textPacket
  rw [if_pos (Nat.lt_of_not_le h)]
  rfl

theorem writeSuccess (w : Wire) :
    writeTextList ["status=success"] w = (.ok (), w.wrote [successPacket, .flush]) := by
  have hfits : LineFits "status=success" := by decide
  unfold writeTextList
  rw [bind_ok (writeText_of_fits hfits w)]
  exact congrArg (Prod.mk _) (Wire.wrote_wrote w [linePacket "status=success"] [.flush])

theorem writeAllThenFlush_eq (bytes : List UInt8) (w : Wire) :
    writeAllThenFlush bytes w = (.ok (), w.wrote (writeBinary bytes ++ [.flush])) :=
  congrArg (Prod.mk _) (Wire.wrote_wrote w (writeBinary bytes) [.flush])

/-- An error list, and the flush behind it. -/
theorem writeError (line : String) (w : Wire) :
    (writeTextList ["status=error", line] >>= fun _ => flushPacket) w =
      if LineFits line then (.ok (), w.wrote [errorPacket, linePacket line, .flush, .flush])
      else (.error (.error "pkt-line text exceeds 65516 bytes"), w.wrote [errorPacket]) := by
  have hfits : LineFits "status=error" := by decide
  have hstatus := writeText_of_fits hfits w
  split_ifs with hline
  · have hlist : writeTextList ["status=error", line] w =
        (.ok (), w.wrote [errorPacket, linePacket line, .flush]) := by
      unfold writeTextList
      rw [bind_ok hstatus]
      unfold writeTextList
      rw [bind_ok (writeText_of_fits hline _)]
      unfold writeTextList flushPacket
      rw [emit_apply, Wire.wrote_wrote, Wire.wrote_wrote]
      rfl
    rw [bind_ok hlist]
    unfold flushPacket
    rw [emit_apply, Wire.wrote_wrote]
    rfl
  · have hlist : writeTextList ["status=error", line] w =
        (.error (.error "pkt-line text exceeds 65516 bytes"), w.wrote [errorPacket]) := by
      unfold writeTextList
      rw [bind_ok hstatus]
      unfold writeTextList
      rw [bind_error (writeText_of_long hline _)]
      rfl
    rw [bind_error hlist]

end Session

/-! ## Results and their report -/

/-- A result after which the process goes on: a success, or an error whose text fits a packet. -/
def Reported (op : String) : Except Halt Unit → Prop
  | .ok _ => True
  | .error (.error text) => LineFits (Session.errorLine op text)
  | .error .panic => False

/-- What is written after a result. -/
def reportPackets (op : String) : Except Halt Unit → List Packet
  | .ok _ => []
  | .error (.error text) =>
    if LineFits (Session.errorLine op text) then
      [errorPacket, linePacket (Session.errorLine op text), .flush, .flush]
    else [errorPacket]
  | .error .panic => []

theorem reporting_eq (op : String) {handler : Session Unit} {w w' : Wire} {res : Except Halt Unit}
    (h : handler w = (res, w')) :
    (Session.reporting op handler w).2 = w'.wrote (reportPackets op res) ∧
      ((Session.reporting op handler w).1 = .ok () ↔ Reported op res) := by
  unfold Session.reporting
  rw [h]
  cases res with
  | ok u => exact ⟨(Wire.wrote_nil w').symm, by simp [Reported]⟩
  | error e =>
      cases e with
      | panic => exact ⟨(Wire.wrote_nil w').symm, by simp [Reported]⟩
      | error text =>
          simp only [Session.reportRequestError, Session.writeError, Reported, reportPackets]
          split_ifs with hfits <;> simp [hfits]

/-! ## Clean -/

/-- What a drained payload comes to be. -/
def drainResult (env : CleanEnv) (maxInline : Nat) (bytes : List UInt8) :
    Except Halt CleanPayload :=
  if maxInline < bytes.length then
    match env.spillFlush with
    | some text => .error (.error text)
    | none => .ok (.spilled bytes)
  else .ok (.inMemory bytes)

/-- Packets that are read to the end, from packet `i` and `total` bytes on: they keep to the cap, and
    what goes to a temporary file gets there. -/
def Drains (env : CleanEnv) (maxInline : Nat) : Nat → Nat → List (List UInt8) → Prop
  | _, _, [] => True
  | i, total, c :: chunks =>
    total + c.length ≤ cleanPayloadCap ∧ (maxInline < total + c.length → env.spill i = none) ∧
      Drains env maxInline (i + 1) (total + c.length) chunks

/-- The bytes so far are in memory, or in the temporary file if there are more than `maxInline`. -/
def DrainState (maxInline : Nat) (buf : List UInt8) (spilled : Option (List UInt8))
    (bytes : List UInt8) : Prop :=
  match spilled with
  | none => buf = bytes ∧ bytes.length ≤ maxInline
  | some file => file = bytes ∧ maxInline < bytes.length

theorem read_packet {p : Packet} (hp : p.Fits) {w : Wire} {rest : List UInt8}
    (hin : w.input = encodePacket p ++ rest) :
    Session.read readPacket w = (.ok p, { w with input := rest }) := by
  unfold Session.read
  rw [hin, readPacket_encode hp]

theorem drainLoop_eq {env : CleanEnv} {maxInline : Nat} {chunks : List (List UInt8)}
    (hfits : ∀ c ∈ chunks, c.length ≤ maxPktPayload) {rounds i : Nat}
    (hrounds : chunks.length < rounds) {buf bytes : List UInt8} {spilled : Option (List UInt8)}
    (hstate : DrainState maxInline buf spilled bytes) {w : Wire} {rest : List UInt8}
    (hin : w.input = encodePackets (payloadPackets chunks) ++ rest) :
    (Drains env maxInline i bytes.length chunks →
      Session.drainLoop env maxInline rounds i buf spilled bytes.length w =
        (drainResult env maxInline (bytes ++ chunks.flatten), { w with input := rest })) ∧
    (¬ Drains env maxInline i bytes.length chunks → ∃ text unread,
      Session.drainLoop env maxInline rounds i buf spilled bytes.length w =
        (.error (.error text),
          { w with input := encodePackets (payloadPackets unread) ++ rest })) := by
  induction chunks generalizing rounds i buf bytes spilled w with
  | nil =>
      obtain ⟨n, rfl⟩ : ∃ n, rounds = n + 1 := ⟨rounds - 1, by simp at hrounds; omega⟩
      refine ⟨fun _ => ?_, fun h => absurd trivial h⟩
      have hread := read_packet (p := .flush) trivial hin
      unfold Session.drainLoop
      rw [Session.bind_ok hread, List.flatten_nil, List.append_nil]
      unfold drainResult
      unfold DrainState at hstate
      cases spilled with
      | none =>
          obtain ⟨rfl, hle⟩ := hstate
          rw [if_neg (Nat.not_lt.2 hle)]
          rfl
      | some file =>
          obtain ⟨rfl, hlt⟩ := hstate
          rw [if_pos hlt]
          cases env.spillFlush <;> rfl
  | cons c chunks ih =>
      obtain ⟨n, rfl⟩ : ∃ n, rounds = n + 1 := ⟨rounds - 1, by simp at hrounds; omega⟩
      rw [show payloadPackets (c :: chunks) = .data c :: payloadPackets chunks from rfl,
        encodePackets_cons, List.append_assoc] at hin
      have hread := read_packet (p := .data c) (hfits c List.mem_cons_self) hin
      have hlen : bytes.length + c.length = (bytes ++ c).length := (List.length_append ..).symm
      have hnext : ∀ buf' spilled', DrainState maxInline buf' spilled' (bytes ++ c) → _ :=
        fun buf' spilled' hstate' => @ih (fun c' hc' => hfits c' (List.mem_cons_of_mem c hc'))
          n (i + 1) (by simpa using hrounds) buf' (bytes ++ c) spilled' hstate'
          { w with input := encodePackets (payloadPackets chunks) ++ rest } rfl
      unfold Session.drainLoop
      rw [Session.bind_ok hread, List.flatten_cons, ← List.append_assoc]
      simp only [Drains, hlen]
      by_cases hcap : (bytes ++ c).length > cleanPayloadCap
      · rw [if_pos hcap]
        refine ⟨fun h => absurd h.1 (Nat.not_le.2 hcap), fun _ => ⟨_, chunks, rfl⟩⟩
      · rw [if_neg hcap]
        have hcap' : (bytes ++ c).length ≤ cleanPayloadCap := Nat.le_of_not_lt hcap
        -- whether this packet goes to the temporary file
        by_cases hspill : maxInline < (bytes ++ c).length
        · have hwrite : ∀ file, file = bytes ++ c → ∀ buf',
              ((env.spill i = none ∧
                  Drains env maxInline (i + 1) (bytes ++ c).length chunks →
                (match env.spill i with
                  | some text => Session.fail (.error text)
                  | none => Session.drainLoop env maxInline n (i + 1) buf' (some file)
                      (bytes ++ c).length)
                  { w with input := encodePackets (payloadPackets chunks) ++ rest } =
                    (drainResult env maxInline (bytes ++ c ++ chunks.flatten),
                      { w with input := rest })) ∧
              (¬ (env.spill i = none ∧
                  Drains env maxInline (i + 1) (bytes ++ c).length chunks) → ∃ text unread,
                (match env.spill i with
                  | some text => Session.fail (.error text)
                  | none => Session.drainLoop env maxInline n (i + 1) buf' (some file)
                      (bytes ++ c).length)
                  { w with input := encodePackets (payloadPackets chunks) ++ rest } =
                    (.error (.error text),
                      { w with input := encodePackets (payloadPackets unread) ++ rest }))) := by
            rintro file rfl buf'
            cases henv : env.spill i with
            | some text =>
                refine ⟨fun h => absurd h.1 (by simp), fun _ => ⟨text, chunks, rfl⟩⟩
            | none =>
                obtain ⟨hok, hbad⟩ := hnext buf' (some (bytes ++ c)) ⟨rfl, hspill⟩
                exact ⟨fun h => hok h.2, fun h => hbad (fun hd => h ⟨rfl, hd⟩)⟩
          have hcond : ((bytes ++ c).length ≤ cleanPayloadCap ∧
              (maxInline < (bytes ++ c).length → env.spill i = none) ∧
                Drains env maxInline (i + 1) (bytes ++ c).length chunks) ↔
              (env.spill i = none ∧ Drains env maxInline (i + 1) (bytes ++ c).length chunks) :=
            ⟨fun h => ⟨h.2.1 hspill, h.2.2⟩, fun h => ⟨hcap', fun _ => h.1, h.2⟩⟩
          rw [hcond]
          unfold DrainState at hstate
          cases spilled with
          | some file =>
              obtain ⟨rfl, -⟩ := hstate
              exact hwrite _ rfl buf
          | none =>
              obtain ⟨rfl, -⟩ := hstate
              simp only
              rw [if_pos (by omega)]
              exact hwrite _ rfl []
        · have hcond : ((bytes ++ c).length ≤ cleanPayloadCap ∧
              (maxInline < (bytes ++ c).length → env.spill i = none) ∧
                Drains env maxInline (i + 1) (bytes ++ c).length chunks) ↔
              Drains env maxInline (i + 1) (bytes ++ c).length chunks :=
            ⟨fun h => h.2.2, fun h => ⟨hcap', fun h' => absurd h' hspill, h⟩⟩
          rw [hcond]
          unfold DrainState at hstate
          cases spilled with
          | some file =>
              obtain ⟨rfl, hlt⟩ := hstate
              exact absurd (by rw [List.length_append]; omega) hspill
          | none =>
              obtain ⟨rfl, -⟩ := hstate
              simp only
              rw [if_neg (by omega)]
              exact hnext (buf ++ c) none ⟨rfl, Nat.le_of_not_lt hspill⟩

/-- The length of the stream is enough rounds. -/
theorem rounds_of_input {chunks : List (List UInt8)} {w : Wire} {rest : List UInt8}
    (hin : w.input = encodePackets (payloadPackets chunks) ++ rest) :
    chunks.length < w.input.length + 1 := by
  have hlen := encodePackets_length_ge (payloadPackets chunks)
  have hcount : (payloadPackets chunks).length = chunks.length + 1 := by simp [payloadPackets]
  rw [hin, List.length_append]
  omega

theorem drainCleanPayload_eq (env : CleanEnv) (maxInline : Nat) {chunks : List (List UInt8)}
    (hfits : ∀ c ∈ chunks, c.length ≤ maxPktPayload) {w : Wire} {rest : List UInt8}
    (hin : w.input = encodePackets (payloadPackets chunks) ++ rest) :
    (Drains env maxInline 0 0 chunks → Session.drainCleanPayload env maxInline w =
      (drainResult env maxInline chunks.flatten, { w with input := rest })) ∧
    (¬ Drains env maxInline 0 0 chunks → ∃ text unread,
      Session.drainCleanPayload env maxInline w = (.error (.error text),
        { w with input := encodePackets (payloadPackets unread) ++ rest })) := by
  have hrounds := rounds_of_input hin
  have hstate : DrainState maxInline [] none [] := ⟨rfl, Nat.zero_le _⟩
  exact drainLoop_eq hfits hrounds hstate hin

/-- The pointer or error of `answerClean`, and whether the runtime is started then. -/
def cleanAnswer (env : RequestEnv) (runtime : Bool) (payload : CleanPayload) :
    Except Halt String × Bool :=
  let res := Session.answerClean env payload ⟨[], [], runtime⟩
  (res.1, res.2.runtime)

theorem answerClean_eq (env : RequestEnv) (payload : CleanPayload) (w : Wire) :
    Session.answerClean env payload w = ((cleanAnswer env w.runtime payload).1,
      { w with runtime := (cleanAnswer env w.runtime payload).2 }) := by
  obtain ⟨input, output, runtime⟩ := w
  unfold cleanAnswer Session.answerClean
  split_ifs
  · rfl
  · cases env.clean.storeRoot with
    | some text => rfl
    | none =>
        cases env.clean.lookup payload with
        | panic => rfl
        | hit pointer => cases env.clean.lock <;> rfl
        | miss =>
            simp only [bind, Session.ensureRuntime]
            cases runtime <;> cases env.runtime <;> cases env.clean.lock <;>
              first | rfl | (cases env.clean.staged payload <;> rfl)

/-- What a clean request comes to once its payload is read. -/
def cleanOutcome (env : RequestEnv) (maxInline : Nat) (runtime : Bool) (bytes : List UInt8) :
    Except Halt String × Bool :=
  match drainResult env.clean maxInline bytes with
  | .error h => (.error h, runtime)
  | .ok payload => cleanAnswer env runtime payload

/-- A response: a success, the content, a success. -/
def contentPackets (content : List Packet) : List Packet :=
  [successPacket, .flush] ++ content ++ [.flush, successPacket, .flush]

def cleanWritten : Except Halt String → List Packet
  | .ok pointer => contentPackets (writeBinary (asBytes pointer))
  | .error _ => []

theorem doClean_eq (env : RequestEnv) (maxInline : Nat) {chunks : List (List UInt8)}
    (hfits : ∀ c ∈ chunks, c.length ≤ maxPktPayload) {w : Wire} {rest : List UInt8}
    (hin : w.input = encodePackets (payloadPackets chunks) ++ rest) :
    (Drains env.clean maxInline 0 0 chunks → Session.doClean env maxInline w =
      ((cleanOutcome env maxInline w.runtime chunks.flatten).1.map (fun _ => ()),
        (⟨rest, w.output, (cleanOutcome env maxInline w.runtime chunks.flatten).2⟩ : Wire).wrote
          (cleanWritten (cleanOutcome env maxInline w.runtime chunks.flatten).1))) ∧
    (¬ Drains env.clean maxInline 0 0 chunks → ∃ text unread,
      Session.doClean env maxInline w = (.error (.error text),
        { w with input := encodePackets (payloadPackets unread) ++ rest })) := by
  obtain ⟨hok, hbad⟩ := drainCleanPayload_eq env.clean maxInline hfits hin
  unfold Session.doClean
  refine ⟨fun h => ?_, fun h => ?_⟩
  · have hdrain := hok h
    unfold cleanOutcome
    cases hres : drainResult env.clean maxInline chunks.flatten with
    | error e =>
        rw [hres] at hdrain
        rw [Session.bind_error hdrain]
        exact congrArg (Prod.mk _) (Wire.wrote_nil _).symm
    | ok payload =>
        rw [hres] at hdrain
        rw [Session.bind_ok hdrain]
        have hanswer := answerClean_eq env payload { w with input := rest }
        cases hpointer : (cleanAnswer env w.runtime payload).1 with
        | error e =>
            simp only [hpointer] at hanswer
            rw [Session.bind_error hanswer]
            exact congrArg (Prod.mk _) (Wire.wrote_nil _).symm
        | ok pointer =>
            simp only [hpointer] at hanswer
            rw [Session.bind_ok hanswer]
            rw [Session.bind_ok (Session.writeSuccess _),
              Session.bind_ok (Session.writeAllThenFlush_eq _ _), Session.writeSuccess]
            simp only [Wire.wrote_wrote, cleanWritten, contentPackets, List.append_assoc]
            rfl
  · obtain ⟨text, unread, hread⟩ := hbad h
    exact ⟨text, unread, Session.bind_error hread⟩

/-! ## Smudge -/

theorem writeBinary_small {bytes : List UInt8} (hne : bytes ≠ []) (hle : bytes.length ≤ maxPktPayload) :
    writeBinary bytes = [.data bytes] := by
  obtain ⟨b, bs, rfl⟩ := List.exists_cons_of_ne_nil hne
  unfold writeBinary
  rw [List.length_cons, binaryPackets]
  rw [if_neg (by simp), List.take_of_length_le hle, List.drop_of_length_le hle]
  cases bs.length <;> simp [binaryPackets]

/-- The packets of `finish_smudge`, and how it ends. -/
def smudgeWritten (tmp : TmpFile) : List Packet × Except Halt Unit :=
  match tmp.openError with
  | some text => ([successPacket, .flush], .error (.error text))
  | none =>
    match tmp.readError with
    | some text => ([successPacket, .flush] ++ tmp.reads.map Packet.data, .error (.error text))
    | none => (contentPackets (tmp.reads.map Packet.data), .ok ())

theorem finishSmudge_eq (tmp : TmpFile) (w : Wire) :
    Session.finishSmudge tmp w = ((smudgeWritten tmp).2, w.wrote (smudgeWritten tmp).1) := by
  have hreads : tmp.reads.flatMap writeBinary = tmp.reads.map Packet.data := by
    have hall : ∀ r ∈ tmp.reads, writeBinary r = [Packet.data r] :=
      fun r hr => writeBinary_small (tmp.reads_le r hr).1 (tmp.reads_le r hr).2
    rw [List.flatMap_congr hall]
    exact (List.map_eq_flatMap ..).symm
  unfold Session.finishSmudge smudgeWritten
  rw [Session.bind_ok (Session.writeSuccess w)]
  cases tmp.openError with
  | some text => rfl
  | none =>
      simp only [hreads]
      rw [Session.bind_ok (Session.emit_apply _ _)]
      cases tmp.readError with
      | some text =>
          simp only [Wire.wrote_wrote]
          rfl
      | none =>
          simp only
          unfold Session.flushPacket
          rw [Session.bind_ok (Session.emit_apply _ _), Session.writeSuccess]
          simp only [Wire.wrote_wrote, contentPackets, List.append_assoc]
          rfl

/-- What a smudge request comes to once its payload is read. -/
def smudgeOutcome (env : RequestEnv) (bytes : List UInt8) : List Packet × Except Halt Unit :=
  match env.reconstruct bytes with
  | .error h => ([], .error h)
  | .ok tmp => smudgeWritten tmp

theorem read_binary {chunks : List (List UInt8)} (hfits : ∀ c ∈ chunks, c.length ≤ maxPktPayload)
    (cap : Nat) {w : Wire} {rest : List UInt8}
    (hin : w.input = encodePackets (payloadPackets chunks) ++ rest) :
    (chunks.flatten.length ≤ cap → Session.read (readBinaryTo cap) w =
      (.ok chunks.flatten, { w with input := rest })) ∧
    (¬ chunks.flatten.length ≤ cap → ∃ text unread, Session.read (readBinaryTo cap) w =
      (.error (.error text), { w with input := encodePackets (payloadPackets unread) ++ rest })) := by
  have hrounds := rounds_of_input hin
  have hread := readBinaryLoop_encode hfits hrounds (Nat.zero_le cap) rest
  rw [← hin, Nat.zero_add] at hread
  unfold Session.read readBinaryTo
  refine ⟨fun hle => ?_, fun hgt => ?_⟩
  · rw [if_pos hle] at hread
    rw [hread]
  · rw [if_neg hgt] at hread
    rw [hread]
    exact ⟨_, _, rfl⟩

theorem handleSmudge_eq (env : RequestEnv) {chunks : List (List UInt8)}
    (hfits : ∀ c ∈ chunks, c.length ≤ maxPktPayload) {w : Wire} {rest : List UInt8}
    (hin : w.input = encodePackets (payloadPackets chunks) ++ rest) :
    (chunks.flatten.length ≤ smudgePayloadCap → Session.handleSmudge env w =
      ((smudgeOutcome env chunks.flatten).2,
        ({ w with input := rest } : Wire).wrote (smudgeOutcome env chunks.flatten).1)) ∧
    (¬ chunks.flatten.length ≤ smudgePayloadCap → ∃ text unread, Session.handleSmudge env w =
      (.error (.error text), { w with input := encodePackets (payloadPackets unread) ++ rest })) := by
  obtain ⟨hok, hbad⟩ := read_binary hfits smudgePayloadCap hin
  unfold Session.handleSmudge smudgeOutcome
  refine ⟨fun h => ?_, fun h => ?_⟩
  · rw [Session.bind_ok (hok h)]
    cases env.reconstruct chunks.flatten with
    | error e => exact congrArg (Prod.mk _) (Wire.wrote_nil _).symm
    | ok tmp => exact finishSmudge_eq tmp _
  · obtain ⟨text, unread, hread⟩ := hbad h
    exact ⟨text, unread, Session.bind_error hread⟩

/-! ## Commands -/

/-- The runtime is there, or starts. -/
def RuntimeStarts (env : RequestEnv) (runtime : Bool) : Prop := runtime = true ∨ env.runtime = none

/-- How a command ends, where it leaves the streams, and whether it went to the end of the payload. -/
structure Dispatched (env : RequestEnv) (maxInline : Nat) (command : String) (w w' : Wire)
    (written : List Packet) (goesOn : Prop) : Prop where
  wire : (Session.dispatch env maxInline command w).2 = w'.wrote written
  goes : (Session.dispatch env maxInline command w).1 = .ok () ↔ goesOn

section Commands

variable (env : RequestEnv) (maxInline : Nat) {chunks : List (List UInt8)} {w : Wire}
  {rest : List UInt8}

theorem dispatch_clean (hfits : ∀ c ∈ chunks, c.length ≤ maxPktPayload)
    (hin : w.input = encodePackets (payloadPackets chunks) ++ rest) :
    (Drains env.clean maxInline 0 0 chunks → Dispatched env maxInline "clean" w
      ⟨rest, w.output, (cleanOutcome env maxInline w.runtime chunks.flatten).2⟩
      (cleanWritten (cleanOutcome env maxInline w.runtime chunks.flatten).1 ++ reportPackets "clean"
        ((cleanOutcome env maxInline w.runtime chunks.flatten).1.map (fun _ => ())))
      (Reported "clean" ((cleanOutcome env maxInline w.runtime chunks.flatten).1.map
        (fun _ => ())))) ∧
    (¬ Drains env.clean maxInline 0 0 chunks → ∃ text unread, Dispatched env maxInline "clean" w
      { w with input := encodePackets (payloadPackets unread) ++ rest }
      (reportPackets "clean" (.error (.error text)))
      (Reported "clean" (.error (.error text)))) := by
  obtain ⟨hok, hbad⟩ := doClean_eq env maxInline hfits hin
  have hdispatch : Session.dispatch env maxInline "clean" =
      Session.reporting "clean" (Session.doClean env maxInline) := by
    unfold Session.dispatch
    rw [if_pos rfl]
  refine ⟨fun h => ?_, fun h => ?_⟩
  · obtain ⟨hwire, hgoes⟩ := reporting_eq "clean" (hok h)
    rw [Wire.wrote_wrote] at hwire
    exact ⟨hdispatch ▸ hwire, hdispatch ▸ hgoes⟩
  · obtain ⟨text, unread, hread⟩ := hbad h
    obtain ⟨hwire, hgoes⟩ := reporting_eq "clean" hread
    exact ⟨text, unread, hdispatch ▸ hwire, hdispatch ▸ hgoes⟩

theorem dispatch_smudge (hfits : ∀ c ∈ chunks, c.length ≤ maxPktPayload)
    (hin : w.input = encodePackets (payloadPackets chunks) ++ rest) :
    (¬ RuntimeStarts env w.runtime → Dispatched env maxInline "smudge" w w [] False) ∧
    (RuntimeStarts env w.runtime → chunks.flatten.length ≤ smudgePayloadCap →
      Dispatched env maxInline "smudge" w ⟨rest, w.output, true⟩
        ((smudgeOutcome env chunks.flatten).1 ++
          reportPackets "smudge" (smudgeOutcome env chunks.flatten).2)
        (Reported "smudge" (smudgeOutcome env chunks.flatten).2)) ∧
    (RuntimeStarts env w.runtime → ¬ chunks.flatten.length ≤ smudgePayloadCap →
      ∃ text unread, Dispatched env maxInline "smudge" w
        ⟨encodePackets (payloadPackets unread) ++ rest, w.output, true⟩
        (reportPackets "smudge" (.error (.error text)))
        (Reported "smudge" (.error (.error text)))) := by
  have hdispatch : Session.dispatch env maxInline "smudge" =
      (Session.ensureRuntime env >>= fun _ =>
        Session.reporting "smudge" (Session.handleSmudge env)) := by
    unfold Session.dispatch
    rw [if_neg (by decide), if_pos rfl]
  have hstarts : RuntimeStarts env w.runtime →
      Session.ensureRuntime env w = (.ok (), { w with runtime := true }) := by
    intro h
    unfold Session.ensureRuntime
    cases hr : w.runtime with
    | true => simp [← hr]
    | false => simp [h.resolve_left (by simp [hr])]
  obtain ⟨hok, hbad⟩ := handleSmudge_eq env (w := { w with runtime := true }) hfits hin
  refine ⟨fun h => ?_, fun h hle => ?_, fun h hgt => ?_⟩
  · have hfails : ∃ text, Session.ensureRuntime env w = (.error (.error text), w) := by
      unfold RuntimeStarts at h
      unfold Session.ensureRuntime
      cases hr : w.runtime with
      | true => exact absurd (Or.inl hr) h
      | false =>
          cases hstart : env.runtime with
          | none => exact absurd (Or.inr hstart) h
          | some text => exact ⟨text, rfl⟩
    obtain ⟨text, hfails⟩ := hfails
    have herror := Session.bind_error (f := fun _ =>
      Session.reporting "smudge" (Session.handleSmudge env)) hfails
    refine ⟨?_, ?_⟩
    · rw [hdispatch, herror, Wire.wrote_nil]
    · rw [hdispatch, herror]
      simp
  · obtain ⟨hwire, hgoes⟩ := reporting_eq "smudge" (hok hle)
    rw [Wire.wrote_wrote] at hwire
    refine ⟨?_, ?_⟩ <;> rw [hdispatch, Session.bind_ok (hstarts h)]
    · exact hwire
    · exact hgoes
  · obtain ⟨text, unread, hread⟩ := hbad hgt
    obtain ⟨hwire, hgoes⟩ := reporting_eq "smudge" hread
    refine ⟨text, unread, ?_, ?_⟩ <;> rw [hdispatch, Session.bind_ok (hstarts h)]
    · exact hwire
    · exact hgoes

/-- What an unknown command is answered with. -/
def unknownPackets (command : String) : List Packet :=
  if LineFits (Session.unknownLine command) then
    [errorPacket, linePacket (Session.unknownLine command), .flush, .flush]
  else [errorPacket]

theorem dispatch_unknown (hfits : ∀ c ∈ chunks, c.length ≤ maxPktPayload)
    (hin : w.input = encodePackets (payloadPackets chunks) ++ rest) {command : String}
    (hclean : command ≠ "clean") (hsmudge : command ≠ "smudge") :
    (chunks.flatten.length ≤ drainPayloadCap → Dispatched env maxInline command w
      { w with input := rest } (unknownPackets command)
      (LineFits (Session.unknownLine command))) ∧
    (¬ chunks.flatten.length ≤ drainPayloadCap → ∃ unread, Dispatched env maxInline command w
      { w with input := encodePackets (payloadPackets unread) ++ rest } [] False) := by
  have hdispatch : Session.dispatch env maxInline command =
      (Session.drainPayload >>= fun _ =>
        Session.writeTextList ["status=error", Session.unknownLine command] >>=
          fun _ => Session.flushPacket) := by
    unfold Session.dispatch
    rw [if_neg hclean, if_neg hsmudge]
  obtain ⟨hok, hbad⟩ := read_binary hfits drainPayloadCap hin
  unfold Session.drainPayload at hdispatch
  refine ⟨fun h => ?_, fun h => ?_⟩
  · have hdrain : (Session.read (readBinaryTo drainPayloadCap) >>=
        fun _ => (pure () : Session Unit)) w = (.ok (), { w with input := rest }) := by
      rw [Session.bind_ok (hok h)]
      rfl
    refine ⟨?_, ?_⟩
    · rw [hdispatch, Session.bind_ok hdrain, Session.writeError]
      unfold unknownPackets
      split_ifs <;> rfl
    · rw [hdispatch, Session.bind_ok hdrain, Session.writeError]
      split_ifs with hline <;> simp [hline]
  · obtain ⟨text, unread, hread⟩ := hbad h
    have hdrain := Session.bind_error (f := fun _ => (pure () : Session Unit)) hread
    refine ⟨unread, ?_, ?_⟩
    · rw [hdispatch, Session.bind_error hdrain, Wire.wrote_nil]
    · rw [hdispatch, Session.bind_error hdrain]
      simp

end Commands

/-! ## One round -/

section Round

variable {maxInline : Nat} {s : FilterProcess} {env : RequestEnv} {r : FilterRequest}
  {rest : List UInt8}

/-- The wire when the header list of a request has been read. -/
def afterHeaders (w : Wire) (r : FilterRequest) (rest : List UInt8) : Wire :=
  { w with input := encodePackets (payloadPackets r.payload) ++ rest }

theorem readTextList_headers (hin : s.wire.input = r.encode ++ rest) :
    (∀ lines, r.lines = some lines →
      readTextList s.wire.input = (.ok lines, (afterHeaders s.wire r rest).input)) ∧
    (r.lines = none → ∃ text left,
      readTextList s.wire.input = (.error (.invalidData text), left)) := by
  unfold FilterRequest.encode at hin
  rw [List.append_assoc] at hin
  have hread := readTextLoop_encode r.headers_le (rounds_of_input hin)
    (encodePackets (payloadPackets r.payload) ++ rest)
  rw [← hin] at hread
  unfold FilterRequest.lines readTextList
  refine ⟨fun lines hlines => ?_, fun hnone => ?_⟩
  · rw [hlines] at hread
    exact hread
  · rw [hnone] at hread
    exact hread

theorem lines_ne_nil {lines : List String} (hlines : r.lines = some lines) : lines ≠ [] := by
  rintro rfl
  unfold FilterRequest.lines decodeLines at hlines
  cases hheaders : r.headers with
  | nil => exact r.headers_ne hheaders
  | cons l ls =>
      rw [hheaders, List.mapM_cons] at hlines
      cases hline : fromUtf8 (stripNewline l) with
      | none => simp [hline] at hlines
      | some line =>
          cases hrest : ls.mapM (fun bytes => fromUtf8 (stripNewline bytes)) <;>
            simp [hline, hrest] at hlines

/-- A round that starts at a request, whose lines are UTF-8. -/
theorem loopStep_request (hexit : s.exit = none) (hin : s.wire.input = r.encode ++ rest)
    {lines : List String} (hlines : r.lines = some lines) {command : String}
    (hcommand : commandOf lines = command) {w' : Wire} {written : List Packet} {goesOn : Prop}
    (hdispatch : Dispatched env maxInline command (afterHeaders s.wire r rest) w' written goesOn) :
    (goesOn → loopStep maxInline s env = some ⟨w'.wrote written, s.log ++ [lines], none⟩) ∧
    (¬ goesOn → ∃ h, loopStep maxInline s env =
      some ⟨w'.wrote written, s.log, some (.error h)⟩) := by
  subst hcommand
  have hempty : lines.isEmpty = false := by simpa using lines_ne_nil hlines
  have hserve : Session.serveOne env maxInline s.wire =
      (Session.dispatch env maxInline (commandOf lines) >>= fun _ =>
        (pure (some lines) : Session (Option (List String)))) (afterHeaders s.wire r rest) := by
    unfold Session.serveOne
    rw [(readTextList_headers hin).1 lines hlines]
    simp only [hempty]
    rfl
  obtain ⟨hwire, hgoes⟩ := hdispatch
  unfold loopStep
  rw [hexit, hserve]
  cases hres : Session.dispatch env maxInline (commandOf lines) (afterHeaders s.wire r rest) with
  | mk res after =>
      rw [hres] at hwire hgoes
      obtain rfl : after = w'.wrote written := hwire
      cases res with
      | ok u =>
          have hgo : goesOn := hgoes.1 rfl
          rw [Session.bind_ok hres]
          exact ⟨fun _ => rfl, fun h => absurd hgo h⟩
      | error h =>
          have hstop : ¬ goesOn := fun hgo => by simpa using hgoes.2 hgo
          rw [Session.bind_error hres]
          exact ⟨fun hgo => absurd hgo hstop, fun _ => ⟨h, rfl⟩⟩

variable (maxInline env) in
/-- Lines that are not UTF-8 end the process. -/
theorem loopStep_invalid (hexit : s.exit = none) (hin : s.wire.input = r.encode ++ rest)
    (hlines : r.lines = none) : ∃ h left, loopStep maxInline s env =
      some ⟨{ s.wire with input := left }, s.log, some (.error h)⟩ := by
  obtain ⟨text, left, hread⟩ := (readTextList_headers hin).2 hlines
  refine ⟨.error text, left, ?_⟩
  unfold loopStep Session.serveOne
  rw [hexit, hread]
  rfl

end Round

end BaleForGit
