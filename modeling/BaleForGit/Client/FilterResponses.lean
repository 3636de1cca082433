import BaleForGit.Client.FilterSync

set_option autoImplicit false

/-! # What git reads of the responses

`Response` is what git's protocol allows for one request, and `parseResponse` reads one from a list of
packets; there is at most one way to do so (`parseResponse_packets`). The filter writes an error list
with `write_text_list`, which ends it with a flush, and then a flush of its own: so whatever
follows, the next response that git reads is empty.

`responses_iff` is about whole sessions, up to the exit of the process. -/

namespace BaleForGit

/-- A response: a success, content and a closing status that says whether to keep it; or an error
    list. -/
inductive Response where
  | content (chunks : List (List UInt8)) (kept : Bool)
  | failed (lines : List (List UInt8))
deriving DecidableEq, Repr

namespace Response

def packets : Response → List Packet
  | .content chunks kept =>
    successPacket :: .flush :: (chunks.map Packet.data ++
      .flush :: (if kept then successPacket else errorPacket) :: [.flush])
  | .failed lines => errorPacket :: (lines.map Packet.data ++ [.flush])

/-- Its data packets are packets. -/
def Fits : Response → Prop
  | .content chunks _ => ∀ c ∈ chunks, c.length ≤ maxPktPayload
  | .failed lines => ∀ l ∈ lines, l.length ≤ maxPktPayload

theorem packets_fits {r : Response} (h : r.Fits) : ∀ p ∈ r.packets, p.Fits := by
  have hsuccess : successPacket.Fits := by decide
  have herror : errorPacket.Fits := by decide
  have hflush : Packet.flush.Fits := trivial
  cases r with
  | content chunks kept =>
      intro p hp
      simp only [packets, List.mem_cons, List.mem_append, List.mem_map, List.not_mem_nil,
        or_false] at hp
      rcases hp with rfl | rfl | ⟨c, hc, rfl⟩ | rfl | rfl | rfl
      · exact hsuccess
      · exact hflush
      · exact h c hc
      · exact hflush
      · split_ifs
        · exact hsuccess
        · exact herror
      · exact hflush
  | failed lines =>
      intro p hp
      simp only [packets, List.mem_cons, List.mem_append, List.mem_map, List.not_mem_nil,
        or_false] at hp
      rcases hp with rfl | ⟨l, hl, rfl⟩ | rfl
      · exact herror
      · exact h l hl
      · exact hflush

end Response

/-- The bytes are `n` responses, one after the other. -/
def AreResponses (n : Nat) (bytes : List UInt8) : Prop :=
  ∃ rs : List Response, rs.length = n ∧ (∀ r ∈ rs, r.Fits) ∧
    bytes = encodePackets (rs.flatMap Response.packets)

/-! ## Git's reader -/

/-- Data packets up to a flush, and what follows. -/
def untilFlush : List Packet → Option (List (List UInt8) × List Packet)
  | [] => none
  | .flush :: ps => some ([], ps)
  | .data bytes :: ps => (untilFlush ps).map (fun res => (bytes :: res.1, res.2))
  | _ :: _ => none

def statusSuccess : List UInt8 := asBytes "status=success" ++ [10]
def statusError : List UInt8 := asBytes "status=error" ++ [10]

/-- One response, and what follows it. -/
def parseResponse (ps : List Packet) : Option (Response × List Packet) :=
  match untilFlush ps with
  | none => none
  | some (status, rest) =>
    if status = [statusSuccess] then
      match untilFlush rest with
      | none => none
      | some (chunks, rest) =>
        match untilFlush rest with
        | none => none
        | some (closing, rest) =>
          if closing = [statusSuccess] then some (.content chunks true, rest)
          else if closing = [statusError] then some (.content chunks false, rest)
          else none
    else match status with
      | first :: lines => if first = statusError then some (.failed lines, rest) else none
      | [] => none

theorem untilFlush_data (as : List (List UInt8)) (ps : List Packet) :
    untilFlush (as.map Packet.data ++ .flush :: ps) = some (as, ps) := by
  induction as with
  | nil => rfl
  | cons a as ih => rw [List.map_cons, List.cons_append, untilFlush, ih]; rfl

theorem untilFlush_none (as : List (List UInt8)) : untilFlush (as.map Packet.data) = none := by
  induction as with
  | nil => rfl
  | cons a as ih => rw [List.map_cons, untilFlush, ih]; rfl

theorem statusError_ne : statusError ≠ statusSuccess := by decide

/-- **Every response is read as itself**, whatever follows. -/
theorem parseResponse_packets (r : Response) (ps : List Packet) :
    parseResponse (r.packets ++ ps) = some (r, ps) := by
  cases r with
  | content chunks kept =>
      have hstatus := untilFlush_data [statusSuccess]
        (chunks.map Packet.data ++ .flush :: (if kept then successPacket else errorPacket) ::
          .flush :: ps)
      have hchunks := untilFlush_data chunks
        ((if kept then successPacket else errorPacket) :: .flush :: ps)
      have hlist : (Response.content chunks kept).packets ++ ps =
          [statusSuccess].map Packet.data ++ .flush :: (chunks.map Packet.data ++
            .flush :: (if kept then successPacket else errorPacket) :: .flush :: ps) := by
        simp [Response.packets, successPacket, statusSuccess]
      have hclosing : untilFlush ((if kept then successPacket else errorPacket) :: .flush :: ps) =
          some ([if kept then statusSuccess else statusError], ps) := by
        cases kept with
        | true => exact untilFlush_data [statusSuccess] ps
        | false => exact untilFlush_data [statusError] ps
      rw [hlist]
      unfold parseResponse
      rw [hstatus]
      simp only [if_true, hchunks, hclosing, List.cons.injEq, and_true]
      cases kept with
      | true => rfl
      | false => simp only [Bool.false_eq_true, if_false, statusError_ne, if_true]
  | failed lines =>
      have hstatus := untilFlush_data (statusError :: lines) ps
      have hlist : (Response.failed lines).packets ++ ps =
          (statusError :: lines).map Packet.data ++ .flush :: ps := by
        simp [Response.packets, errorPacket, statusError]
      rw [hlist]
      unfold parseResponse
      rw [hstatus]
      have hne : statusError :: lines ≠ [statusSuccess] :=
        fun h => statusError_ne (List.cons.inj h).1
      simp only [if_neg hne, if_true]

/-! ## What is no response -/

/-- What is written before a failure: nothing, or content that is not closed. -/
def Opened (opened : List Packet) : Prop :=
  opened = [] ∨ ∃ chunks : List (List UInt8), (∀ c ∈ chunks, c.length ≤ maxPktPayload) ∧
    opened = successPacket :: .flush :: chunks.map Packet.data

/-- What a request writes that does not succeed: content that is not closed, perhaps, and then nothing
    or half a report if the process exits, or a report with two flushes. -/
def Unanswered (written : List Packet) (goesOn : Prop) : Prop :=
  ∃ opened tail, written = opened ++ tail ∧ Opened opened ∧
    ((tail = [] ∧ ¬ goesOn) ∨ (tail = [errorPacket] ∧ ¬ goesOn) ∨
      ∃ line, line.length ≤ maxPktPayload ∧ tail = [errorPacket, .data line, .flush, .flush])

theorem Unanswered.fits {written : List Packet} {goesOn : Prop} (h : Unanswered written goesOn) :
    ∀ p ∈ written, p.Fits := by
  have hsuccess : successPacket.Fits := by decide
  have herror : errorPacket.Fits := by decide
  have hflush : Packet.flush.Fits := trivial
  obtain ⟨opened, tail, rfl, hopened, htail⟩ := h
  have hopens : ∀ p ∈ opened, p.Fits := by
    obtain rfl | ⟨chunks, hchunks, rfl⟩ := hopened
    · simp
    · intro p hp
      simp only [List.mem_cons, List.mem_map] at hp
      obtain rfl | rfl | ⟨c, hc, rfl⟩ := hp
      · exact hsuccess
      · exact hflush
      · exact hchunks c hc
  have hcloses : ∀ p ∈ tail, p.Fits := by
    obtain ⟨rfl, -⟩ | ⟨rfl, -⟩ | ⟨line, hline, rfl⟩ := htail
    · simp
    · intro p hp
      exact List.mem_singleton.1 hp ▸ herror
    · intro p hp
      simp only [List.mem_cons, List.not_mem_nil, or_false] at hp
      obtain rfl | rfl | rfl | rfl := hp
      · exact herror
      · exact hline
      · exact hflush
      · exact hflush
  intro p hp
  exact (List.mem_append.1 hp).elim (hopens p) (hcloses p)

theorem parseResponse_flush (ps : List Packet) : parseResponse (.flush :: ps) = none := by
  simp [parseResponse, untilFlush]

/-- **What a failed request writes is not read as a response**, or leaves a flush that is not. -/
theorem Unanswered.not_responses {written : List Packet} {goesOn : Prop}
    (h : Unanswered written goesOn) {ps : List Packet} (hexit : ¬ goesOn → ps = []) (r : Response)
    (rs : List Response) : r.packets ++ rs.flatMap Response.packets ≠ written ++ ps := by
  intro heq
  have hparse := parseResponse_packets r (rs.flatMap Response.packets)
  rw [heq] at hparse
  obtain ⟨opened, tail, rfl, hopened, htail⟩ := h
  rcases hopened with rfl | ⟨chunks, -, rfl⟩
  · rcases htail with ⟨rfl, hstop⟩ | ⟨rfl, hstop⟩ | ⟨line, -, rfl⟩
    · rw [hexit hstop] at hparse
      simp [parseResponse, untilFlush] at hparse
    · rw [hexit hstop] at hparse
      have hnone : untilFlush [errorPacket] = none := untilFlush_none [statusError]
      simp [parseResponse, hnone] at hparse
    · -- the report is read, and then its second flush
      have hreport := parseResponse_packets (.failed [line]) (.flush :: ps)
      have hlist : ([] ++ [errorPacket, .data line, .flush, .flush]) ++ ps =
          (Response.failed [line]).packets ++ .flush :: ps := rfl
      rw [hlist, hreport, Option.some.injEq, Prod.mk.injEq] at hparse
      cases rs with
      | nil => simp at hparse
      | cons r' rs =>
          have hnext := parseResponse_packets r' (rs.flatMap Response.packets)
          rw [← List.flatMap_cons, ← hparse.2, parseResponse_flush] at hnext
          simp at hnext
  · have hstatus : ∀ qs, untilFlush (successPacket :: .flush :: qs) = some ([statusSuccess], qs) :=
      fun qs => untilFlush_data [statusSuccess] qs
    rcases htail with ⟨rfl, hstop⟩ | ⟨rfl, hstop⟩ | ⟨line, -, rfl⟩
    · rw [hexit hstop] at hparse
      simp [parseResponse, hstatus, untilFlush_none] at hparse
    · rw [hexit hstop] at hparse
      have hnone : untilFlush (chunks.map Packet.data ++ [errorPacket]) = none := by
        have h := untilFlush_none (chunks ++ [statusError])
        rwa [List.map_append] at h
      simp [parseResponse, hstatus, hnone] at hparse
    · have hchunks : untilFlush (chunks.map Packet.data ++
          errorPacket :: .data line :: .flush :: .flush :: ps) =
            some (chunks ++ [statusError, line], .flush :: ps) := by
        have h := untilFlush_data (chunks ++ [statusError, line]) (.flush :: ps)
        rw [List.map_append, List.append_assoc] at h
        exact h
      have hclosing : untilFlush (.flush :: ps) = some ([], ps) := rfl
      simp [parseResponse, hstatus, hchunks, hclosing] at hparse

/-! ## Whatever is written is packets -/

theorem asBytes_newline {line : String} (h : LineFits line) :
    (asBytes line ++ [10]).length ≤ maxPktPayload := by
  rw [List.length_append]
  exact h

/-- Whatever the input is, what `x` writes is packets. -/
def Emits {α : Type} (x : Session α) : Prop :=
  ∀ w, ∃ ps, (∀ p ∈ ps, Packet.Fits p) ∧ (x w).2.output = w.output ++ encodePackets ps

namespace Emits

variable {α β : Type}

theorem nothing {x : Session α} (h : ∀ w, (x w).2.output = w.output) : Emits x :=
  fun w => ⟨[], by simp, by rw [h w]; simp [encodePackets]⟩

theorem pure (a : α) : Emits (Pure.pure a : Session α) := nothing (fun _ => rfl)

theorem fail (h : Halt) : Emits (Session.fail h : Session α) := nothing (fun _ => rfl)

theorem read (r : PktReader α) : Emits (Session.read r) := by
  refine nothing (fun w => ?_)
  unfold Session.read
  split <;> rfl

theorem answer (a : Except Halt α) : Emits (Session.answer a) := by
  cases a with
  | ok a => exact pure a
  | error h => exact fail h

theorem emit {ps : List Packet} (h : ∀ p ∈ ps, p.Fits) : Emits (Session.emit ps) :=
  fun _ => ⟨ps, h, rfl⟩

theorem bind {x : Session α} {f : α → Session β} (hx : Emits x) (hf : ∀ a, Emits (f a)) :
    Emits (x >>= f) := by
  intro w
  obtain ⟨ps, hps, hout⟩ := hx w
  cases hres : x w with
  | mk res w' =>
      rw [hres] at hout
      cases res with
      | error h => exact ⟨ps, hps, by rw [Session.bind_error hres]; exact hout⟩
      | ok a =>
          obtain ⟨qs, hqs, hout'⟩ := hf a w'
          refine ⟨ps ++ qs, ?_, ?_⟩
          · intro p hp
            exact (List.mem_append.1 hp).elim (hps p) (hqs p)
          · rw [Session.bind_ok hres, hout', hout, encodePackets_append, List.append_assoc]

theorem ite {c : Prop} [Decidable c] {x y : Session α} (hx : Emits x) (hy : Emits y) :
    Emits (if c then x else y) := by
  split_ifs
  · exact hx
  · exact hy

theorem ensureRuntime (env : RequestEnv) : Emits (Session.ensureRuntime env) := by
  refine nothing (fun w => ?_)
  unfold Session.ensureRuntime
  split
  · rfl
  · split <;> rfl

theorem flushPacket : Emits Session.flushPacket :=
  emit (fun p hp => by rw [List.mem_singleton.1 hp]; trivial)

theorem writeText (line : String) : Emits (Session.writeText line) := by
  by_cases hline : LineFits line
  · unfold Session.writeText
    rw [textPacket_of_fits hline]
    refine emit (fun p hp => ?_)
    rw [List.mem_singleton.1 hp]
    exact asBytes_newline hline
  · exact nothing (fun w => by rw [Session.writeText_of_long hline])

theorem writeTextList (lines : List String) : Emits (Session.writeTextList lines) := by
  induction lines with
  | nil => exact flushPacket
  | cons line lines ih => exact (writeText line).bind (fun _ => ih)

end Emits

theorem binaryPackets_fits (rounds : Nat) (bytes : List UInt8) :
    ∀ p ∈ binaryPackets rounds bytes, ∃ c, p = .data c ∧ c.length ≤ maxPktPayload := by
  induction rounds generalizing bytes with
  | zero => simp [binaryPackets]
  | succ rounds ih =>
      intro p hp
      rw [binaryPackets] at hp
      split_ifs at hp
      · simp at hp
      · obtain rfl | hp := List.mem_cons.1 hp
        · exact ⟨_, rfl, by rw [List.length_take]; exact Nat.min_le_left _ _⟩
        · exact ih _ p hp

/-- What `write_binary` writes is data packets. -/
theorem writeBinary_data (bytes : List UInt8) : ∃ chunks : List (List UInt8),
    writeBinary bytes = chunks.map Packet.data ∧ ∀ c ∈ chunks, c.length ≤ maxPktPayload := by
  have hall : ∀ ps : List Packet, (∀ p ∈ ps, ∃ c, p = .data c ∧ c.length ≤ maxPktPayload) →
      ∃ chunks : List (List UInt8), ps = chunks.map Packet.data ∧
        ∀ c ∈ chunks, c.length ≤ maxPktPayload := by
    intro ps hps
    induction ps with
    | nil => exact ⟨[], rfl, by simp⟩
    | cons p ps ih =>
        obtain ⟨c, rfl, hc⟩ := hps p List.mem_cons_self
        obtain ⟨chunks, rfl, hchunks⟩ := ih (fun q hq => hps q (List.mem_cons_of_mem _ hq))
        refine ⟨c :: chunks, rfl, fun c' hc' => ?_⟩
        obtain rfl | hc' := List.mem_cons.1 hc'
        · exact hc
        · exact hchunks c' hc'
  exact hall _ (binaryPackets_fits bytes.length bytes)

namespace Emits

theorem writeBinary (bytes : List UInt8) : Emits (Session.emit (BaleForGit.writeBinary bytes)) := by
  obtain ⟨chunks, heq, hfits⟩ := writeBinary_data bytes
  refine emit (fun p hp => ?_)
  rw [heq] at hp
  obtain ⟨c, hc, rfl⟩ := List.mem_map.1 hp
  exact hfits c hc

theorem drainLoop (env : CleanEnv) (maxInline rounds i total : Nat) (buf : List UInt8)
    (spilled : Option (List UInt8)) :
    Emits (Session.drainLoop env maxInline rounds i buf spilled total) := by
  induction rounds generalizing i total buf spilled with
  | zero => exact fail _
  | succ rounds ih =>
      unfold Session.drainLoop
      refine (read readPacket).bind (fun p => ?_)
      cases p with
      | flush =>
          cases spilled with
          | none => exact pure _
          | some file =>
              cases h : env.spillFlush with
              | none => simpa only [h] using pure _
              | some text => simpa only [h] using fail _
      | data bytes =>
          refine ite (fail _) ?_
          cases spilled with
          | some file =>
              cases h : env.spill i with
              | none => simpa only [h] using ih _ _ _ _
              | some text => simpa only [h] using fail _
          | none =>
              refine ite ?_ (ih _ _ _ _)
              cases h : env.spill i with
              | none => simpa only [h] using ih _ _ _ _
              | some text => simpa only [h] using fail _
      | delim => exact fail _
      | responseEnd => exact fail _

theorem doClean (env : RequestEnv) (maxInline : Nat) : Emits (Session.doClean env maxInline) := by
  refine bind (fun w => drainLoop env.clean maxInline _ 0 0 [] none w) (fun payload => ?_)
  refine bind (nothing (fun w => by rw [answerClean_eq])) (fun pointer => ?_)
  exact (writeTextList _).bind (fun _ => ((writeBinary _).bind (fun _ => flushPacket)).bind
    (fun _ => writeTextList _))

theorem handleSmudge (env : RequestEnv) : Emits (Session.handleSmudge env) := by
  refine (read _).bind (fun bytes => (answer _).bind (fun tmp => ?_))
  refine fun w => ⟨(smudgeWritten tmp).1, ?_, by rw [finishSmudge_eq]; rfl⟩
  have hreads : ∀ p ∈ tmp.reads.map Packet.data, p.Fits := by
    intro p hp
    obtain ⟨c, hc, rfl⟩ := List.mem_map.1 hp
    exact (tmp.reads_le c hc).2
  have hsuccess : successPacket.Fits := by decide
  have hflush : Packet.flush.Fits := trivial
  unfold smudgeWritten contentPackets
  intro p hp
  split at hp
  · simp only [List.mem_cons, List.not_mem_nil, or_false] at hp
    rcases hp with rfl | rfl
    · exact hsuccess
    · exact hflush
  · split at hp <;> simp only [List.mem_append, List.mem_cons, List.not_mem_nil, or_false] at hp
    · rcases hp with (rfl | rfl) | hp
      · exact hsuccess
      · exact hflush
      · exact hreads p hp
    · rcases hp with ((rfl | rfl) | hp) | rfl | rfl | rfl
      · exact hsuccess
      · exact hflush
      · exact hreads p hp
      · exact hflush
      · exact hsuccess
      · exact hflush

theorem reporting {op : String} {handler : Session Unit} (h : Emits handler) :
    Emits (Session.reporting op handler) := by
  intro w
  obtain ⟨ps, hps, hout⟩ := h w
  unfold Session.reporting
  split
  · rename_i text w' hres
    have hreport : Emits (Session.reportRequestError op text) :=
      (writeTextList _).bind (fun _ => flushPacket)
    obtain ⟨qs, hqs, hout'⟩ := hreport w'
    rw [hres] at hout
    refine ⟨ps ++ qs, ?_, ?_⟩
    · intro p hp
      exact (List.mem_append.1 hp).elim (hps p) (hqs p)
    · rw [hout', hout, encodePackets_append, List.append_assoc]
  · exact ⟨ps, hps, hout⟩

theorem dispatch (env : RequestEnv) (maxInline : Nat) (command : String) :
    Emits (Session.dispatch env maxInline command) :=
  ite (doClean env maxInline).reporting (ite ((ensureRuntime env).bind (fun _ =>
    (handleSmudge env).reporting)) (((read _).bind (fun _ => pure ())).bind (fun _ =>
      (writeTextList _).bind (fun _ => flushPacket))))

theorem serveOne (env : RequestEnv) (maxInline : Nat) :
    Emits (Session.serveOne env maxInline) := by
  intro w
  unfold Session.serveOne
  split
  · exact ⟨[], by simp, by simp [encodePackets]⟩
  · exact ⟨[], by simp, by simp [encodePackets]⟩
  · rename_i lines rest hread
    split_ifs
    · exact ⟨[], by simp, by simp [encodePackets]⟩
    · exact ((dispatch env maxInline (commandOf lines)).bind (fun _ => pure (some lines)))
        { w with input := rest }

end Emits

theorem loopStep_emits {maxInline : Nat} {s s' : FilterProcess} {env : RequestEnv}
    (h : loopStep maxInline s env = some s') : ∃ ps, (∀ p ∈ ps, Packet.Fits p) ∧
      s'.wire.output = s.wire.output ++ encodePackets ps := by
  obtain ⟨ps, hps, hout⟩ := Emits.serveOne env maxInline s.wire
  refine ⟨ps, hps, ?_⟩
  rw [← hout]
  unfold loopStep at h
  split_ifs at h
  split at h <;> (rename_i hres; rw [hres, ← Option.some.inj h])

theorem run_emits {maxInline : Nat} {s t : FilterProcess} {envs : List RequestEnv}
    (h : Machine.run (loopStep maxInline) s envs = some t) : ∃ ps, (∀ p ∈ ps, Packet.Fits p) ∧
      t.wire.output = s.wire.output ++ encodePackets ps := by
  induction envs generalizing s with
  | nil =>
      obtain rfl := Option.some.inj h
      exact ⟨[], by simp, by simp [encodePackets]⟩
  | cons env envs ih =>
      obtain ⟨s₁, hstep, hrest⟩ := Machine.run_cons_eq_some h
      obtain ⟨ps, hps, hout⟩ := loopStep_emits hstep
      obtain ⟨qs, hqs, hout'⟩ := ih hrest
      refine ⟨ps ++ qs, ?_, ?_⟩
      · intro p hp
        exact (List.mem_append.1 hp).elim (hps p) (hqs p)
      · rw [hout', hout, encodePackets_append, List.append_assoc]

/-! ## When a request is answered -/

section Answered

variable (maxInline : Nat)

/-- A payload, once it is drained. -/
def payloadOf (bytes : List UInt8) : CleanPayload :=
  if maxInline < bytes.length then .spilled bytes else .inMemory bytes

/-- Everything that a clean request needs goes well. -/
structure CleanGoesWell (runtime : Bool) (payload : List (List UInt8)) (env : RequestEnv) :
    Prop where
  drains : Drains env.clean maxInline 0 0 payload
  flushed : maxInline < payload.flatten.length → env.clean.spillFlush = none
  gitDir : env.clean.gitDir = true
  storeRoot : env.clean.storeRoot = none
  lock : env.clean.lock = none
  staged : match env.clean.lookup (payloadOf maxInline payload.flatten) with
    | .panic => False
    | .hit _ => True
    | .miss => RuntimeStarts env runtime ∧
        ∃ pointer, env.clean.staged (payloadOf maxInline payload.flatten) = .ok pointer

/-- Everything that a smudge request needs goes well. -/
structure SmudgeGoesWell (runtime : Bool) (payload : List (List UInt8)) (env : RequestEnv) :
    Prop where
  starts : RuntimeStarts env runtime
  size_le : payload.flatten.length ≤ smudgePayloadCap
  streamed : ∃ tmp, env.reconstruct payload.flatten = .ok tmp ∧ tmp.openError = none ∧
    tmp.readError = none

/-- A clean or a smudge that does not fail. -/
def RequestAnswered (runtime : Bool) (r : FilterRequest) (env : RequestEnv) : Prop :=
  match r.lines with
  | none => False
  | some lines =>
    if commandOf lines = "clean" then CleanGoesWell maxInline runtime r.payload env
    else if commandOf lines = "smudge" then SmudgeGoesWell runtime r.payload env
    else False

/-- Every request of a sequence, in the state of the runtime that it comes to. -/
def AllAnswered : Bool → List FilterRequest → List RequestEnv → Prop
  | _, [], _ => True
  | _, _ :: _, [] => False
  | runtime, r :: rs, env :: envs =>
    RequestAnswered maxInline runtime r env ∧
      AllAnswered (runtimeAfter maxInline runtime r env) rs envs

end Answered

theorem cleanAnswer_ok (env : RequestEnv) (runtime : Bool) (payload : CleanPayload) :
    (∃ pointer, (cleanAnswer env runtime payload).1 = .ok pointer) ↔
      env.clean.gitDir = true ∧ env.clean.storeRoot = none ∧ env.clean.lock = none ∧
        match env.clean.lookup payload with
        | .panic => False
        | .hit _ => True
        | .miss => RuntimeStarts env runtime ∧ ∃ pointer, env.clean.staged payload = .ok pointer := by
  unfold cleanAnswer Session.answerClean
  cases hdir : env.clean.gitDir with
  | false => simp [Session.fail]
  | true =>
      cases hroot : env.clean.storeRoot with
      | some text => simp [Session.fail]
      | none =>
          cases hlookup : env.clean.lookup payload with
          | panic => simp [Session.fail]
          | hit pointer =>
              cases hlock : env.clean.lock with
              | some text => simp [Session.fail]
              | none => simp [pure]
          | miss =>
              simp only [bind, Session.ensureRuntime, RuntimeStarts]
              cases runtime <;> cases hstart : env.runtime <;> cases hlock : env.clean.lock <;>
                cases hstaged : env.clean.staged payload <;>
                simp [Session.fail, Session.answer, pure]

/-- **A clean succeeds when everything that it needs goes well.** -/
theorem cleanOutcome_ok {env : RequestEnv} {maxInline : Nat} {runtime : Bool}
    {payload : List (List UInt8)} (hdrains : Drains env.clean maxInline 0 0 payload) :
    (∃ pointer, (cleanOutcome env maxInline runtime payload.flatten).1 = .ok pointer) ↔
      CleanGoesWell maxInline runtime payload env := by
  have hanswer := cleanAnswer_ok env runtime (payloadOf maxInline payload.flatten)
  have hflush : drainResult env.clean maxInline payload.flatten =
      .ok (payloadOf maxInline payload.flatten) ∨
      (∃ text, drainResult env.clean maxInline payload.flatten = .error (.error text) ∧
        maxInline < payload.flatten.length ∧ env.clean.spillFlush = some text) := by
    unfold drainResult payloadOf
    split_ifs with hlarge
    · cases hspill : env.clean.spillFlush with
      | none => exact Or.inl rfl
      | some text => exact Or.inr ⟨text, rfl, hlarge, rfl⟩
    · exact Or.inl rfl
  unfold cleanOutcome
  obtain hok | ⟨text, herr, hlarge, hspill⟩ := hflush
  · rw [hok]
    refine hanswer.trans ⟨?_, fun h => ⟨h.gitDir, h.storeRoot, h.lock, h.staged⟩⟩
    rintro ⟨hdir, hroot, hlock, hstaged⟩
    refine ⟨hdrains, fun hlarge => ?_, hdir, hroot, hlock, hstaged⟩
    unfold drainResult at hok
    rw [if_pos hlarge] at hok
    cases hspill : env.clean.spillFlush with
    | none => rfl
    | some text => simp [hspill] at hok
  · rw [herr]
    refine iff_of_false (by simp) (fun h => ?_)
    simp [h.flushed hlarge] at hspill

theorem smudgeOutcome_ok {env : RequestEnv} {bytes : List UInt8} :
    (smudgeOutcome env bytes).2 = .ok () ↔
      ∃ tmp, env.reconstruct bytes = .ok tmp ∧ tmp.openError = none ∧ tmp.readError = none := by
  unfold smudgeOutcome smudgeWritten
  cases env.reconstruct bytes with
  | error h => simp
  | ok tmp =>
      cases hopen : tmp.openError with
      | some text => simp [hopen]
      | none =>
          cases hread : tmp.readError with
          | some text => simp [hopen, hread]
          | none => simp [hopen, hread]

/-! ## What a request writes -/

theorem contentPackets_eq (chunks : List (List UInt8)) :
    contentPackets (chunks.map Packet.data) = (Response.content chunks true).packets := by
  simp [contentPackets, Response.packets]

theorem cleanWritten_ok (pointer : String) : ∃ r : Response, r.Fits ∧
    cleanWritten (.ok pointer) = r.packets := by
  obtain ⟨chunks, heq, hfits⟩ := writeBinary_data (asBytes pointer)
  refine ⟨.content chunks true, hfits, ?_⟩
  rw [← contentPackets_eq, ← heq]
  rfl

theorem smudgeWritten_ok {env : RequestEnv} {bytes : List UInt8}
    (h : (smudgeOutcome env bytes).2 = .ok ()) : ∃ r : Response, r.Fits ∧
      (smudgeOutcome env bytes).1 = r.packets := by
  obtain ⟨tmp, hrec, hopen, hread⟩ := smudgeOutcome_ok.1 h
  refine ⟨.content tmp.reads true, fun c hc => (tmp.reads_le c hc).2, ?_⟩
  unfold smudgeOutcome smudgeWritten
  simp only [hrec, hopen, hread]
  exact contentPackets_eq tmp.reads

theorem smudgeWritten_error (env : RequestEnv) (bytes : List UInt8) {h : Halt}
    (herr : (smudgeOutcome env bytes).2 = .error h) : Opened (smudgeOutcome env bytes).1 := by
  unfold smudgeOutcome smudgeWritten at herr ⊢
  cases hrec : env.reconstruct bytes with
  | error h => exact Or.inl rfl
  | ok tmp =>
      rw [hrec] at herr
      cases hopen : tmp.openError with
      | some text => exact Or.inr ⟨[], by simp, by simp [hopen]⟩
      | none =>
          cases hread : tmp.readError with
          | some text =>
              exact Or.inr ⟨tmp.reads, fun c hc => (tmp.reads_le c hc).2, by simp [hopen, hread]⟩
          | none => simp [hopen, hread] at herr

theorem report_unanswered (op : String) (h : Halt) {opened : List Packet} (hopened : Opened opened) :
    Unanswered (opened ++ reportPackets op (.error h)) (Reported op (.error h)) := by
  refine ⟨opened, _, rfl, hopened, ?_⟩
  cases h with
  | panic => exact Or.inl ⟨rfl, id⟩
  | error text =>
      by_cases hline : LineFits (Session.errorLine op text)
      · exact Or.inr (Or.inr ⟨_, asBytes_newline hline, by simp only [reportPackets, if_pos hline]; rfl⟩)
      · exact Or.inr (Or.inl ⟨by simp only [reportPackets, if_neg hline], hline⟩)

theorem unknown_unanswered (command : String) :
    Unanswered (unknownPackets command) (LineFits (Session.unknownLine command)) := by
  refine ⟨[], unknownPackets command, rfl, Or.inl rfl, ?_⟩
  by_cases hline : LineFits (Session.unknownLine command)
  · exact Or.inr (Or.inr ⟨_, asBytes_newline hline, by simp only [unknownPackets, if_pos hline]; rfl⟩)
  · exact Or.inr (Or.inl ⟨by simp only [unknownPackets, if_neg hline], hline⟩)

/-! ## One request -/

section Step

variable {maxInline : Nat} {s s' : FilterProcess} {env : RequestEnv} {r : FilterRequest}
  {rest : List UInt8}

/-- **A request that is answered** writes one response, and the next one is read from its start. -/
theorem loopStep_answered (hexit : s.exit = none) (hin : s.wire.input = r.encode ++ rest)
    (h : RequestAnswered maxInline s.wire.runtime r env) :
    ∃ s' resp, loopStep maxInline s env = some s' ∧ s'.exit = none ∧ s'.wire.input = rest ∧
      s'.wire.runtime = runtimeAfter maxInline s.wire.runtime r env ∧ Response.Fits resp ∧
      s'.wire.output = s.wire.output ++ encodePackets resp.packets := by
  unfold RequestAnswered at h
  unfold runtimeAfter
  cases hlines : r.lines with
  | none => simp [hlines] at h
  | some lines =>
      simp only [hlines] at h ⊢
      have hinput : (afterHeaders s.wire r rest).input =
          encodePackets (payloadPackets r.payload) ++ rest := rfl
      split_ifs at h ⊢ with hclean hsmudge
      · have hd := (dispatch_clean env maxInline r.payload_le hinput).1 h.drains
        obtain ⟨pointer, hpointer⟩ := (cleanOutcome_ok h.drains).2 h
        obtain ⟨resp, hfits, hpackets⟩ := cleanWritten_ok pointer
        have hgoes : Reported "clean" ((cleanOutcome env maxInline s.wire.runtime
            r.payload.flatten).1.map (fun _ => ())) := by
          rw [hpointer]
          trivial
        refine ⟨_, resp, (loopStep_request hexit hin hlines hclean hd).1 hgoes, rfl, rfl, rfl, hfits, ?_⟩
        change s.wire.output ++ encodePackets (cleanWritten (cleanOutcome env maxInline s.wire.runtime
          r.payload.flatten).1 ++ reportPackets "clean" ((cleanOutcome env maxInline s.wire.runtime
            r.payload.flatten).1.map (fun _ => ()))) = _
        rw [hpointer, hpackets]
        exact congrArg (fun ps => s.wire.output ++ encodePackets ps) (List.append_nil _)
      · have hd := (dispatch_smudge env maxInline r.payload_le hinput).2.1
          h.starts h.size_le
        have hok := smudgeOutcome_ok.2 h.streamed
        obtain ⟨resp, hfits, hpackets⟩ := smudgeWritten_ok hok
        have hgoes : Reported "smudge" (smudgeOutcome env r.payload.flatten).2 := by
          rw [hok]
          trivial
        refine ⟨_, resp, (loopStep_request hexit hin hlines hsmudge hd).1 hgoes, rfl, rfl, rfl, hfits, ?_⟩
        change s.wire.output ++ encodePackets ((smudgeOutcome env r.payload.flatten).1 ++
          reportPackets "smudge" (smudgeOutcome env r.payload.flatten).2) = _
        rw [hok, hpackets]
        exact congrArg (fun ps => s.wire.output ++ encodePackets ps) (List.append_nil _)

/-- What follows from a dispatch that is no answer. -/
theorem loopStep_of_unanswered (hexit : s.exit = none) (hin : s.wire.input = r.encode ++ rest)
    {lines : List String} (hlines : r.lines = some lines) {command : String}
    (hcommand : commandOf lines = command) {w' : Wire} {written : List Packet} {goesOn : Prop}
    (hdispatch : Dispatched env maxInline command (afterHeaders s.wire r rest) w' written goesOn)
    (hout : w'.output = s.wire.output) (hun : Unanswered written goesOn)
    (hstep : loopStep maxInline s env = some s') :
    ∃ written, Unanswered written (s'.exit = none) ∧
      s'.wire.output = s.wire.output ++ encodePackets written := by
  obtain ⟨hgo, hstop⟩ := loopStep_request hexit hin hlines hcommand hdispatch
  refine ⟨written, ?_⟩
  by_cases hg : goesOn
  · obtain rfl := Option.some.inj ((hgo hg).symm.trans hstep)
    rw [show (none = none : Prop) = goesOn by simp [hg]]
    exact ⟨hun, by rw [← hout]; rfl⟩
  · obtain ⟨h, hstop⟩ := hstop hg
    obtain rfl := Option.some.inj (hstop.symm.trans hstep)
    have hiff : (some (Except.error h) = (none : Option (Except Halt Unit))) = goesOn := by simp [hg]
    rw [hiff]
    exact ⟨hun, by rw [← hout]; rfl⟩

/-- **A request that is not answered** writes what is no response. -/
theorem loopStep_unanswered (hexit : s.exit = none) (hin : s.wire.input = r.encode ++ rest)
    (h : ¬ RequestAnswered maxInline s.wire.runtime r env) (hstep : loopStep maxInline s env = some s') :
    ∃ written, Unanswered written (s'.exit = none) ∧
      s'.wire.output = s.wire.output ++ encodePackets written := by
  have hnothing : Unanswered [] False := ⟨[], [], rfl, Or.inl rfl, Or.inl ⟨rfl, id⟩⟩
  unfold RequestAnswered at h
  cases hlines : r.lines with
  | none =>
      obtain ⟨halt, left, hend⟩ := loopStep_invalid maxInline env hexit hin
        hlines
      obtain rfl := Option.some.inj (hend.symm.trans hstep)
      exact ⟨[], by simpa using hnothing, by simp [encodePackets]⟩
  | some lines =>
      simp only [hlines] at h
      have hinput : (afterHeaders s.wire r rest).input =
          encodePackets (payloadPackets r.payload) ++ rest := rfl
      split_ifs at h with hclean hsmudge
      · obtain ⟨hok, hbad⟩ := dispatch_clean env maxInline r.payload_le hinput
        by_cases hdrains : Drains env.clean maxInline 0 0 r.payload
        · refine loopStep_of_unanswered hexit hin hlines hclean (hok hdrains) rfl ?_ hstep
          have hfails := fun hpointer => h ((cleanOutcome_ok hdrains).1 hpointer)
          change Unanswered (cleanWritten (cleanOutcome env maxInline s.wire.runtime
            r.payload.flatten).1 ++ reportPackets "clean" ((cleanOutcome env maxInline s.wire.runtime
              r.payload.flatten).1.map (fun _ => ()))) (Reported "clean" ((cleanOutcome env maxInline
                s.wire.runtime r.payload.flatten).1.map (fun _ => ())))
          cases hres : (cleanOutcome env maxInline s.wire.runtime r.payload.flatten).1 with
          | ok pointer => exact absurd ⟨pointer, hres⟩ hfails
          | error e => exact report_unanswered "clean" e (Or.inl rfl)
        · obtain ⟨text, unread, hd⟩ := hbad hdrains
          exact loopStep_of_unanswered hexit hin hlines hclean hd rfl
            (report_unanswered "clean" (.error text) (Or.inl rfl)) hstep
      · obtain ⟨hdown, hok, hbad⟩ := dispatch_smudge env maxInline r.payload_le hinput
        by_cases hstarts : RuntimeStarts env s.wire.runtime
        · by_cases hle : r.payload.flatten.length ≤ smudgePayloadCap
          · refine loopStep_of_unanswered hexit hin hlines hsmudge (hok hstarts hle) rfl ?_ hstep
            cases hres : (smudgeOutcome env r.payload.flatten).2 with
            | ok u => exact absurd ⟨hstarts, hle, smudgeOutcome_ok.1 hres⟩ h
            | error e =>
                exact report_unanswered "smudge" e (smudgeWritten_error env r.payload.flatten hres)
          · obtain ⟨text, unread, hd⟩ := hbad hstarts hle
            exact loopStep_of_unanswered hexit hin hlines hsmudge hd rfl
              (report_unanswered "smudge" (.error text) (Or.inl rfl)) hstep
        · exact loopStep_of_unanswered hexit hin hlines hsmudge (hdown hstarts) rfl hnothing hstep
      · obtain ⟨hok, hbad⟩ := dispatch_unknown env maxInline r.payload_le hinput hclean
          hsmudge
        by_cases hle : r.payload.flatten.length ≤ drainPayloadCap
        · exact loopStep_of_unanswered hexit hin hlines rfl (hok hle) rfl (unknown_unanswered _) hstep
        · obtain ⟨unread, hd⟩ := hbad hle
          exact loopStep_of_unanswered hexit hin hlines rfl hd rfl hnothing hstep

end Step

/-! ## A sequence of requests -/

theorem responses_fits {rs : List Response} (h : ∀ r ∈ rs, r.Fits) :
    ∀ p ∈ rs.flatMap Response.packets, p.Fits := by
  intro p hp
  obtain ⟨r, hr, hp'⟩ := List.mem_flatMap.1 hp
  exact Response.packets_fits (h r hr) p hp'

/-- The end of the input is the end of the session. -/
theorem loopStep_end {maxInline : Nat} {s s' : FilterProcess} {env : RequestEnv}
    (hin : s.wire.input = []) (hstep : loopStep maxInline s env = some s') :
    s'.exit ≠ none ∧ s'.wire.output = s.wire.output := by
  unfold loopStep at hstep
  split_ifs at hstep
  have hserve : Session.serveOne env maxInline s.wire = (.ok none, s.wire) := by
    unfold Session.serveOne
    rw [hin]
    have hread : readTextList [] = (.error .unexpectedEof, []) := rfl
    rw [hread]
    simp [← hin]
  rw [hserve] at hstep
  obtain rfl := Option.some.inj hstep
  exact ⟨by simp, rfl⟩

/-- A process that has exited does not go on. -/
theorem run_exited {maxInline : Nat} {s t : FilterProcess} {envs : List RequestEnv}
    (hexit : s.exit ≠ none) (hrun : Machine.run (loopStep maxInline) s envs = some t) : t = s := by
  cases envs with
  | nil => exact (Option.some.inj hrun).symm
  | cons env envs =>
      obtain ⟨s', hstep, -⟩ := Machine.run_cons_eq_some hrun
      unfold loopStep at hstep
      rw [if_pos (Option.isSome_iff_ne_none.2 hexit)] at hstep
      exact absurd hstep (by simp)

/-- From a request on: the packets written to the exit are as many responses as there are requests,
    exactly if all of them are answered. -/
theorem responses_iff_from {maxInline : Nat} {rs : List FilterRequest} {envs : List RequestEnv}
    {s t : FilterProcess} (hexit : s.exit = none) (hin : s.wire.input = encodeRequests rs)
    (hrun : Machine.run (loopStep maxInline) s envs = some t) (hend : t.exit ≠ none) :
    (∃ resps : List Response, resps.length = rs.length ∧ (∀ r ∈ resps, r.Fits) ∧
      t.wire.output = s.wire.output ++ encodePackets (resps.flatMap Response.packets)) ↔
      AllAnswered maxInline s.wire.runtime rs envs := by
  induction rs generalizing s envs with
  | nil =>
      refine iff_of_true ⟨[], rfl, by simp, ?_⟩ trivial
      cases envs with
      | nil => exact absurd (Option.some.inj hrun ▸ hexit) hend
      | cons env envs =>
          obtain ⟨s', hstep, hrest⟩ := Machine.run_cons_eq_some hrun
          obtain ⟨hexit', hout⟩ := loopStep_end hin hstep
          rw [run_exited hexit' hrest, hout]
          simp [encodePackets]
  | cons r rs ih =>
      cases envs with
      | nil => exact absurd (Option.some.inj hrun ▸ hexit) hend
      | cons env envs =>
          obtain ⟨s', hstep, hrest⟩ := Machine.run_cons_eq_some hrun
          rw [encodeRequests_cons] at hin
          by_cases hanswered : RequestAnswered maxInline s.wire.runtime r env
          · obtain ⟨s₁, resp, hstep₁, hexit₁, hin₁, hruntime, hfits, hout⟩ :=
              loopStep_answered hexit hin hanswered
            obtain rfl := Option.some.inj (hstep₁.symm.trans hstep)
            have hnext := ih hexit₁ hin₁ hrest
            rw [hruntime] at hnext
            unfold AllAnswered
            rw [← hnext]
            constructor
            · rintro ⟨resps, hlen, hall, houts⟩
              refine ⟨hanswered, ?_⟩
              cases resps with
              | nil => simp at hlen
              | cons resp' resps =>
                  obtain ⟨ps, hps, hrests⟩ := run_emits hrest
                  rw [hrests, hout, List.append_assoc, List.append_right_inj,
                    ← encodePackets_append, List.flatMap_cons] at houts
                  have heq := encodePackets_inj ?_ ?_ houts
                  · have hparse := parseResponse_packets resp ps
                    rw [heq, parseResponse_packets, Option.some.injEq, Prod.mk.injEq] at hparse
                    refine ⟨resps, by simpa using hlen,
                      fun r' hr' => hall r' (List.mem_cons_of_mem _ hr'), ?_⟩
                    rw [hrests, hparse.2]
                  · intro p hp
                    exact (List.mem_append.1 hp).elim (Response.packets_fits hfits p) (hps p)
                  · exact responses_fits hall
            · rintro ⟨-, resps, hlen, hall, houts⟩
              refine ⟨resp :: resps, by simpa using hlen, ?_, ?_⟩
              · intro r' hr'
                obtain rfl | hr' := List.mem_cons.1 hr'
                · exact hfits
                · exact hall r' hr'
              · rw [houts, hout, List.flatMap_cons, encodePackets_append, List.append_assoc]
          · refine iff_of_false ?_ (fun h => hanswered h.1)
            obtain ⟨written, hun, hout⟩ := loopStep_unanswered hexit hin hanswered hstep
            rintro ⟨resps, hlen, hall, houts⟩
            cases resps with
            | nil => simp at hlen
            | cons resp resps =>
                obtain ⟨ps, hps, hrests⟩ := run_emits hrest
                have hexits : ¬ s'.exit = none → ps = [] := by
                  intro hexit'
                  rw [run_exited hexit' hrest] at hrests
                  have hnil : encodePackets ps = [] := List.self_eq_append_right.1 hrests
                  have hle := encodePackets_length_ge ps
                  rw [hnil] at hle
                  exact List.eq_nil_of_length_eq_zero (Nat.le_zero.1 hle)
                rw [hrests, hout, List.append_assoc, List.append_right_inj,
                  ← encodePackets_append, List.flatMap_cons] at houts
                refine hun.not_responses hexits resp resps (encodePackets_inj ?_ ?_ houts).symm
                · intro p hp
                  exact (List.mem_append.1 hp).elim (hun.fits p) (hps p)
                · exact responses_fits hall

/-- **When the responses follow the protocol**: whatever git sends, and whatever becomes of each
    request, what is written until the process exits is one response to each request, in order,
    exactly if every request is a clean or a smudge that does not fail. -/
theorem responses_iff {maxInline : Nat} {rs : List FilterRequest} {envs : List RequestEnv}
    {t : FilterProcess}
    (hrun : Machine.run (loopStep maxInline) (FilterProcess.start (encodeRequests rs)) envs = some t)
    (hend : t.exit ≠ none) :
    AreResponses rs.length t.wire.output ↔ AllAnswered maxInline false rs envs :=
  responses_iff_from (s := FilterProcess.start (encodeRequests rs)) rfl rfl hrun hend

namespace Sample

/-- The clean of a file of one byte. -/
def cleanRequest : FilterRequest where
  headers := [asBytes "command=clean\n", asBytes "pathname=a.bin\n"]
  payload := [[65]]
  headers_ne := by simp
  headers_le := by decide
  payload_le := by simp [maxPktPayload]

/-- A request with a command that there is none of. -/
def listRequest : FilterRequest where
  headers := [asBytes "command=list\n"]
  payload := []
  headers_ne := by simp
  headers_le := by decide
  payload_le := by simp

end Sample

/-- An unknown command is answered with an error list and two flushes, and git reads the second one as
    the answer to its next request. -/
theorem unknown_not_responded : ∃ t, Machine.run (loopStep 4294967296)
    (FilterProcess.start (encodeRequests [Sample.listRequest])) [Sample.quietEnv, Sample.quietEnv] =
      some t ∧ t.exit ≠ none ∧ ¬ AreResponses 1 t.wire.output := by
  have hexits : ((Machine.run (loopStep 4294967296)
      (FilterProcess.start (encodeRequests [Sample.listRequest]))
        [Sample.quietEnv, Sample.quietEnv]).bind FilterProcess.exit).isSome := by
    decide +kernel
  obtain ⟨exit, hexit⟩ := Option.isSome_iff_exists.1 hexits
  obtain ⟨t, hrun, hend⟩ := Option.bind_eq_some_iff.1 hexit
  have hend' : t.exit ≠ none := by simp [hend]
  refine ⟨t, hrun, hend', fun h => ?_⟩
  have hin : (FilterProcess.start (encodeRequests [Sample.listRequest])).wire.input =
      encodeRequests [Sample.listRequest] := rfl
  have hanswered := (responses_iff_from rfl hin hrun hend').1 h
  have hlines : Sample.listRequest.lines = some ["command=list"] := by decide
  have hcommand : commandOf ["command=list"] = "list" := by decide
  have hfalse := hanswered.1
  simp [RequestAnswered, hlines, hcommand] at hfalse

theorem responses_iff_clean : ∃ t, Machine.run (loopStep 4294967296)
    (FilterProcess.start (encodeRequests [Sample.cleanRequest])) [Sample.quietEnv, Sample.quietEnv] =
      some t ∧ t.exit ≠ none ∧ AreResponses 1 t.wire.output := by
  have hexits : ((Machine.run (loopStep 4294967296)
      (FilterProcess.start (encodeRequests [Sample.cleanRequest]))
        [Sample.quietEnv, Sample.quietEnv]).bind FilterProcess.exit).isSome := by
    decide +kernel
  obtain ⟨exit, hexit⟩ := Option.isSome_iff_exists.1 hexits
  obtain ⟨t, hrun, hend⟩ := Option.bind_eq_some_iff.1 hexit
  have hend' : t.exit ≠ none := by simp [hend]
  refine ⟨t, hrun, hend', (responses_iff hrun hend').2 ⟨?_, trivial⟩⟩
  have hlines : Sample.cleanRequest.lines = some ["command=clean", "pathname=a.bin"] := by decide
  have hcommand : commandOf ["command=clean", "pathname=a.bin"] = "clean" := by decide
  simp only [RequestAnswered, hlines, hcommand, if_true]
  refine ⟨⟨by decide, fun _ => rfl, trivial⟩, fun _ => rfl, rfl, rfl, rfl, ?_⟩
  exact ⟨Or.inr rfl, "pointer\n", rfl⟩

end BaleForGit
