import BaleForGit.Client.FilterSync
import BaleForGit.Client.PktGrammar

set_option autoImplicit false

/-! # The opening of the filter process (`filter_process.rs`: `handshake`, `negotiate_capabilities`)

Before the first request git says that it is a filter client, which versions it speaks and which
capabilities it has, and the process answers with what it takes of them. If something is missing the
process ends.

What an error shows with `{:?}` of a text is the parameter `debug`. `session_follows_iff` is about
any bytes that git may send: whether the requests behind them are served in their places. -/

namespace BaleForGit

/-- `read_text`. -/
def readText : PktReader String := do
  match ← readPacket with
  | .data bytes =>
    match fromUtf8 (stripNewline bytes) with
    | none => PktReader.fail (.invalidData "invalid utf-8")
    | some line => return line
  | other => PktReader.fail (.invalidData ("expected text pkt-line, got " ++ other.debug))

/-- `VERSION`. -/
def filterVersion : String := "version=2"

def requiredCapabilities : List String := ["capability=clean", "capability=smudge"]

section Opening

variable (debug : String → String)

/-- `{:?}` of a list of texts. -/
def debugTexts (texts : List String) : String :=
  "[" ++ String.intercalate ", " (texts.map debug) ++ "]"

def Session.handshake : Session Unit := do
  let welcome ← Session.read readText
  if welcome ≠ "git-filter-client" then
    Session.fail (.error ("invalid filter-process welcome message: " ++ debug welcome))
  else do
    let versions ← Session.read readTextList
    if filterVersion ∉ versions then
      Session.fail (.error ("git does not support " ++ filterVersion ++ " (offered: " ++
        debugTexts debug versions ++ ")"))
    else Session.writeTextList ["git-filter-server", filterVersion]

def Session.negotiateCapabilities : Session Unit := do
  let supported ← Session.read readTextList
  match requiredCapabilities.find? (fun req => decide (req ∉ supported)) with
  | some req =>
    Session.fail (.error ("git does not advertise " ++ req ++ " (got: " ++
      debugTexts debug supported ++ ")"))
  | none => Session.writeTextList requiredCapabilities

/-- What `run` does before its loop. -/
def Session.opening : Session Unit := do
  Session.handshake debug
  Session.negotiateCapabilities debug

/-- The process when it comes to its loop, or has not. -/
def FilterProcess.opened (input : List UInt8) : FilterProcess :=
  match Session.opening debug ⟨input, [], false⟩ with
  | (.ok (), w) => ⟨w, [], none⟩
  | (.error h, w) => ⟨w, [], some (.error h)⟩

end Opening

/-! ## What git has to send -/

/-- A welcome and the versions, with the one that is spoken, and what comes behind them. -/
def Greets (s rest : List UInt8) : Prop :=
  ∃ welcome next versions lines, Begins headerLength s (.data welcome) next ∧
    fromUtf8 (stripNewline welcome) = some "git-filter-client" ∧ Payload next versions rest ∧
    decodeLines versions = some lines ∧ filterVersion ∈ lines

/-- The capabilities, with both that are required, and what comes behind them. -/
def Offers (s rest : List UInt8) : Prop :=
  ∃ capabilities lines, Payload s capabilities rest ∧ decodeLines capabilities = some lines ∧
    ∀ req ∈ requiredCapabilities, req ∈ lines

/-- The whole opening, and what comes behind it. -/
def OpensSession (s rest : List UInt8) : Prop := ∃ next, Greets s next ∧ Offers next rest

/-- The answer to the welcome. -/
def greeting : List Packet := [linePacket "git-filter-server", linePacket filterVersion, .flush]

/-- The answer to the capabilities. -/
def offer : List Packet := requiredCapabilities.map linePacket ++ [.flush]

/-! ## Reading texts -/

theorem readText_eq_ok {s rest : List UInt8} {line : String} :
    readText s = (.ok line, rest) ↔ ∃ bytes, Begins headerLength s (.data bytes) rest ∧
      fromUtf8 (stripNewline bytes) = some line := by
  cases hread : readPacket s with
  | mk res next =>
      cases res with
      | error e =>
          unfold readText
          rw [PktReader.bind_error hread]
          simp only [Prod.mk.injEq, reduceCtorEq, false_and, false_iff]
          rintro ⟨bytes, hbegins, -⟩
          rw [readPacket_eq_ok.2 hbegins] at hread
          simp at hread
      | ok p =>
          have hbegins := readPacket_eq_ok.1 hread
          unfold readText
          rw [PktReader.bind_ok hread]
          constructor
          · intro h
            cases p with
            | data bytes =>
                simp only at h
                cases hline : fromUtf8 (stripNewline bytes) with
                | none => simp [hline, PktReader.fail] at h
                | some line' =>
                    simp only [hline, pure, Prod.mk.injEq, Except.ok.injEq] at h
                    obtain ⟨rfl, rfl⟩ := h
                    exact ⟨bytes, hbegins, hline⟩
            | _ => simp [PktReader.fail] at h
          · rintro ⟨bytes, hbegins', hline⟩
            have hsame := readPacket_eq_ok.2 hbegins'
            rw [hread, Prod.mk.injEq, Except.ok.injEq] at hsame
            obtain ⟨rfl, rfl⟩ := hsame
            simp only [hline]
            rfl

/-- What is read as a list of lines is a payload. -/
theorem payload_of_readTextLoop {rounds : Nat} {s rest : List UInt8} {lines : List String}
    (h : readTextLoop rounds s = (.ok lines, rest)) :
    ∃ chunks, Payload s chunks rest ∧ decodeLines chunks = some lines := by
  induction rounds generalizing s lines with
  | zero => simp [readTextLoop, PktReader.fail] at h
  | succ rounds ih =>
      rw [readTextLoop] at h
      cases hread : readPacket s with
      | mk res next =>
          cases res with
          | error e => simp [PktReader.bind_error hread] at h
          | ok p =>
              rw [PktReader.bind_ok hread] at h
              cases p with
              | flush =>
                  simp only [pure, Prod.mk.injEq, Except.ok.injEq] at h
                  obtain ⟨rfl, rfl⟩ := h
                  exact ⟨[], Payload.flush hread, rfl⟩
              | data bytes =>
                  simp only at h
                  cases hline : fromUtf8 (stripNewline bytes) with
                  | none => simp [hline, PktReader.fail] at h
                  | some line =>
                      simp only [hline] at h
                      cases hloop : readTextLoop rounds next with
                      | mk res' left =>
                          cases res' with
                          | error e => simp [PktReader.bind_error hloop] at h
                          | ok more =>
                              rw [PktReader.bind_ok hloop] at h
                              simp only [pure, Prod.mk.injEq, Except.ok.injEq] at h
                              obtain ⟨rfl, rfl⟩ := h
                              obtain ⟨chunks, hpayload, hchunks⟩ := ih hloop
                              refine ⟨bytes :: chunks, Payload.data hread hpayload, ?_⟩
                              unfold decodeLines at hchunks ⊢
                              rw [List.mapM_cons, hline, hchunks]
                              rfl
              | delim => simp [PktReader.fail] at h
              | responseEnd => simp [PktReader.fail] at h

theorem readTextList_eq_ok {s rest : List UInt8} {lines : List String} :
    readTextList s = (.ok lines, rest) ↔
      ∃ chunks, Payload s chunks rest ∧ decodeLines chunks = some lines := by
  constructor
  · exact fun h => payload_of_readTextLoop h
  · rintro ⟨chunks, hpayload, hlines⟩
    exact readTextLoop_payload hpayload (Nat.lt_succ_of_lt hpayload.length_lt) hlines

/-- A greeting, as it is read. -/
theorem greets_iff {s rest : List UInt8} : Greets s rest ↔ ∃ next lines,
    readText s = (.ok "git-filter-client", next) ∧ readTextList next = (.ok lines, rest) ∧
      filterVersion ∈ lines := by
  constructor
  · rintro ⟨welcome, next, versions, lines, hbegins, hline, hpayload, hlines, hmem⟩
    exact ⟨next, lines, readText_eq_ok.2 ⟨welcome, hbegins, hline⟩,
      readTextList_eq_ok.2 ⟨versions, hpayload, hlines⟩, hmem⟩
  · rintro ⟨next, lines, hwelcome, hversions, hmem⟩
    obtain ⟨welcome, hbegins, hline⟩ := readText_eq_ok.1 hwelcome
    obtain ⟨versions, hpayload, hlines⟩ := readTextList_eq_ok.1 hversions
    exact ⟨welcome, next, versions, lines, hbegins, hline, hpayload, hlines, hmem⟩

theorem offers_iff {s rest : List UInt8} : Offers s rest ↔ ∃ lines,
    readTextList s = (.ok lines, rest) ∧ ∀ req ∈ requiredCapabilities, req ∈ lines := by
  constructor
  · rintro ⟨capabilities, lines, hpayload, hlines, hall⟩
    exact ⟨lines, readTextList_eq_ok.2 ⟨capabilities, hpayload, hlines⟩, hall⟩
  · rintro ⟨lines, hread, hall⟩
    obtain ⟨capabilities, hpayload, hlines⟩ := readTextList_eq_ok.1 hread
    exact ⟨capabilities, lines, hpayload, hlines, hall⟩

/-- What comes behind a greeting is known. -/
theorem Greets.unique {s rest rest' : List UInt8} (h : Greets s rest) (h' : Greets s rest') :
    rest = rest' := by
  obtain ⟨next, lines, hwelcome, hversions, -⟩ := greets_iff.1 h
  obtain ⟨next', lines', hwelcome', hversions', -⟩ := greets_iff.1 h'
  obtain rfl : next = next' := (Prod.mk.inj (hwelcome.symm.trans hwelcome')).2
  exact (Prod.mk.inj (hversions.symm.trans hversions')).2

theorem Offers.unique {s rest rest' : List UInt8} (h : Offers s rest) (h' : Offers s rest') :
    rest = rest' := by
  obtain ⟨lines, hread, -⟩ := offers_iff.1 h
  obtain ⟨lines', hread', -⟩ := offers_iff.1 h'
  exact (Prod.mk.inj (hread.symm.trans hread')).2

/-- An opening as git sends it. The versions follow on the welcome without a flush in between. -/
theorem opens_encode {welcome : List UInt8} {versions capabilities : List (List UInt8)}
    {lines offered : List String} (hwelcome : welcome.length ≤ maxPktPayload)
    (hversions : ∀ l ∈ versions, l.length ≤ maxPktPayload)
    (hcapabilities : ∀ l ∈ capabilities, l.length ≤ maxPktPayload)
    (hclient : fromUtf8 (stripNewline welcome) = some "git-filter-client")
    (hlines : decodeLines versions = some lines) (hversion : filterVersion ∈ lines)
    (hoffered : decodeLines capabilities = some offered)
    (hall : ∀ req ∈ requiredCapabilities, req ∈ offered) (rest : List UInt8) :
    OpensSession (encodePackets (.data welcome :: payloadPackets versions ++
      payloadPackets capabilities) ++ rest) rest := by
  rw [List.cons_append, encodePackets_cons, encodePackets_append, List.append_assoc,
    List.append_assoc]
  have hpacket := readPacket_eq_ok.1 (readPacket_encode (p := .data welcome) hwelcome
    (encodePackets (payloadPackets versions) ++
      (encodePackets (payloadPackets capabilities) ++ rest)))
  have hlist := payload_encode hversions (encodePackets (payloadPackets capabilities) ++ rest)
  exact ⟨_, ⟨welcome, _, versions, lines, hpacket, hclient, hlist, hlines, hversion⟩,
    capabilities, offered, payload_encode hcapabilities rest, hoffered, hall⟩

/-- A git that knows a later version and another capability. -/
example (rest : List UInt8) : OpensSession (encodePackets (.data (asBytes "git-filter-client\n") ::
    payloadPackets [asBytes "version=2\n", asBytes "version=42\n"] ++ payloadPackets
      [asBytes "capability=clean\n", asBytes "capability=smudge\n", asBytes "capability=delay\n"])
    ++ rest) rest := by
  have hlines : decodeLines [asBytes "version=2\n", asBytes "version=42\n"] =
      some ["version=2", "version=42"] := by
    decide +kernel
  have hoffered : decodeLines [asBytes "capability=clean\n", asBytes "capability=smudge\n",
      asBytes "capability=delay\n"] =
      some ["capability=clean", "capability=smudge", "capability=delay"] := by
    decide +kernel
  exact opens_encode (by decide) (by decide) (by decide) (by decide +kernel) hlines (by decide)
    hoffered (by decide) rest

/-! ## The two exchanges -/

namespace Session

theorem writeTextList_of_fits {lines : List String} (h : ∀ line ∈ lines, LineFits line) (w : Wire) :
    writeTextList lines w = (.ok (), w.wrote (lines.map linePacket ++ [.flush])) := by
  induction lines generalizing w with
  | nil => rfl
  | cons line lines ih =>
      unfold writeTextList
      rw [bind_ok (writeText_of_fits (h line List.mem_cons_self) w),
        ih (fun l hl => h l (List.mem_cons_of_mem line hl)), Wire.wrote_wrote]
      rfl

theorem read_ok {α : Type} {r : PktReader α} {w : Wire} {a : α} {rest : List UInt8}
    (h : r w.input = (.ok a, rest)) : read r w = (.ok a, { w with input := rest }) := by
  unfold read
  rw [h]

theorem read_error {α : Type} {r : PktReader α} {w : Wire} {e : ReadError} {rest : List UInt8}
    (h : r w.input = (.error e, rest)) :
    read r w = (.error (.error e.text), { w with input := rest }) := by
  unfold read
  rw [h]

variable (debug : String → String)

/-- Git is greeted, or the process ends and has written nothing. -/
theorem handshake_cases (w : Wire) :
    (∃ rest, Greets w.input rest ∧
      handshake debug w = (.ok (), Wire.wrote { w with input := rest } greeting)) ∨
    (¬ (∃ rest, Greets w.input rest) ∧
      ∃ h w', handshake debug w = (.error h, w') ∧ w'.output = w.output) := by
  simp only [greets_iff]
  unfold handshake
  cases hwelcome : readText w.input with
  | mk res next =>
      cases res with
      | error e =>
          refine Or.inr ⟨?_, _, _, bind_error (read_error hwelcome), rfl⟩
          rintro ⟨rest, next', lines, hsame, -⟩
          simp at hsame
      | ok text =>
          rw [bind_ok (read_ok hwelcome)]
          by_cases htext : text = "git-filter-client"
          · subst htext
            rw [if_neg (fun h => h rfl)]
            cases hversions : readTextList next with
            | mk res' rest =>
                cases res' with
                | error e =>
                    refine Or.inr ⟨?_, _, _, bind_error (read_error hversions), rfl⟩
                    rintro ⟨rest', next', lines, hsame, hlines, -⟩
                    rw [← (Prod.mk.inj hsame).2, hversions] at hlines
                    simp at hlines
                | ok lines =>
                    rw [bind_ok (read_ok hversions)]
                    by_cases hmem : filterVersion ∈ lines
                    · rw [if_neg (not_not.2 hmem)]
                      refine Or.inl ⟨rest, ⟨next, lines, rfl, hversions, hmem⟩, ?_⟩
                      exact writeTextList_of_fits (by decide) _
                    · rw [if_pos hmem]
                      refine Or.inr ⟨?_, _, _, rfl, rfl⟩
                      rintro ⟨rest', next', lines', hsame, hlines, hmem'⟩
                      rw [← (Prod.mk.inj hsame).2, hversions] at hlines
                      exact hmem (Except.ok.inj (Prod.mk.inj hlines).1 ▸ hmem')
          · rw [if_pos htext]
            refine Or.inr ⟨?_, _, _, rfl, rfl⟩
            rintro ⟨rest, next', lines, hsame, -⟩
            exact htext (Except.ok.inj (Prod.mk.inj hsame).1)

/-- The capabilities are agreed on, or the process ends and has written nothing more. -/
theorem negotiateCapabilities_cases (w : Wire) :
    (∃ rest, Offers w.input rest ∧
      negotiateCapabilities debug w = (.ok (), Wire.wrote { w with input := rest } offer)) ∨
    (¬ (∃ rest, Offers w.input rest) ∧
      ∃ h w', negotiateCapabilities debug w = (.error h, w') ∧ w'.output = w.output) := by
  simp only [offers_iff]
  unfold negotiateCapabilities
  cases hread : readTextList w.input with
  | mk res rest =>
      cases res with
      | error e =>
          refine Or.inr ⟨?_, _, _, bind_error (read_error hread), rfl⟩
          rintro ⟨rest', lines, hsame, -⟩
          simp at hsame
      | ok lines =>
          rw [bind_ok (read_ok hread)]
          cases hfind : requiredCapabilities.find? (fun req => decide (req ∉ lines)) with
          | none =>
              refine Or.inl ⟨rest, ⟨lines, rfl, ?_⟩, ?_⟩
              · intro req hreq
                simpa using List.find?_eq_none.1 hfind req hreq
              · exact writeTextList_of_fits (by decide) _
          | some req =>
              refine Or.inr ⟨?_, _, _, rfl, rfl⟩
              rintro ⟨rest', lines', hsame, hall⟩
              rw [Prod.mk.injEq, Except.ok.injEq] at hsame
              have hmissing := List.find?_some hfind
              rw [decide_eq_true_eq, hsame.1] at hmissing
              exact hmissing (hall req (List.mem_of_find?_eq_some hfind))

end Session

/-! ## Sessions -/

/-- How the opening goes: all of it, or as far as the answer to the welcome, or not at all. -/
inductive OpeningGoes (s : List UInt8) : FilterProcess → Prop where
  | opened (rest : List UInt8) (hopens : OpensSession s rest) :
      OpeningGoes s ⟨⟨rest, encodePackets (greeting ++ offer), false⟩, [], none⟩
  | greeted (h : Halt) (w : Wire) (next : List UInt8) (hgreets : Greets s next)
      (hoffers : ¬ ∃ rest, Offers next rest) (houtput : w.output = encodePackets greeting) :
      OpeningGoes s ⟨w, [], some (.error h)⟩
  | refused (h : Halt) (w : Wire) (hgreets : ¬ ∃ next, Greets s next) (houtput : w.output = []) :
      OpeningGoes s ⟨w, [], some (.error h)⟩

theorem opening_goes (debug : String → String) (s : List UInt8) :
    OpeningGoes s (FilterProcess.opened debug s) := by
  unfold FilterProcess.opened Session.opening
  rcases Session.handshake_cases debug ⟨s, [], false⟩ with
    ⟨next, hgreets, hshake⟩ | ⟨hnone, h, w, hshake, houtput⟩
  · rw [Session.bind_ok hshake]
    rcases Session.negotiateCapabilities_cases debug
      (Wire.wrote ⟨next, [], false⟩ greeting) with
      ⟨rest, hoffers, hagree⟩ | ⟨hnone, h, w, hagree, houtput⟩
    · simp only [hagree]
      have hwire : Wire.wrote { Wire.wrote ⟨next, [], false⟩ greeting with input := rest } offer =
          ⟨rest, encodePackets (greeting ++ offer), false⟩ := by
        simp [Wire.wrote, encodePackets_append]
      rw [hwire]
      exact OpeningGoes.opened rest ⟨next, hgreets, hoffers⟩
    · simp only [hagree]
      exact OpeningGoes.greeted h w next hgreets hnone houtput
  · rw [Session.bind_error hshake]
    exact OpeningGoes.refused h w hnone houtput

/-- **When a session works, from its first byte on**: for any bytes that git sends and any requests,
    all the requests are served in their places exactly if the bytes are an opening with the version
    and both capabilities, then the requests, and each of these is read to its end and comes to an
    answer. Where the bytes are no such opening, the process ends before any request, and nothing
    but the answer to a well-formed welcome is written. -/
theorem session_follows_iff (debug : String → String) (maxInline : Nat) (s : List UInt8)
    (visits : List (FilterRequest × RequestEnv)) :
    (Follows maxInline (FilterProcess.opened debug s) visits ↔
      OpensSession s (encodeRequests (visits.map Prod.fst)) ∧ AllInSync maxInline false visits) ∧
    ((FilterProcess.opened debug s).exit = none ↔ ∃ rest, OpensSession s rest) ∧
    (FilterProcess.opened debug s).log = [] ∧
    ((∃ rest, OpensSession s rest) →
      (FilterProcess.opened debug s).wire.output = encodePackets (greeting ++ offer)) ∧
    ((∃ next, Greets s next) → (¬ ∃ rest, OpensSession s rest) →
      (FilterProcess.opened debug s).wire.output = encodePackets greeting) ∧
    ((¬ ∃ next, Greets s next) → (FilterProcess.opened debug s).wire.output = []) := by
  have hgoes := opening_goes debug s
  generalize FilterProcess.opened debug s = p at hgoes
  cases hgoes with
  | opened rest hopens =>
      obtain ⟨next, hgreets, hoffers⟩ := hopens
      refine ⟨?_, iff_of_true rfl ⟨rest, next, hgreets, hoffers⟩, rfl, fun _ => rfl,
        fun _ hnot => absurd ⟨rest, next, hgreets, hoffers⟩ hnot,
        fun hnot => absurd ⟨next, hgreets⟩ hnot⟩
      constructor
      · intro hfollows
        obtain ⟨s', hrun, -, hinput, -⟩ := hfollows 0 (Nat.zero_le _)
        obtain rfl := Option.some.inj hrun
        rw [List.drop_zero] at hinput
        simp only at hinput
        refine ⟨⟨next, hgreets, hinput ▸ hoffers⟩, ?_⟩
        exact (follows_iff rfl hinput).1 hfollows
      · rintro ⟨⟨next', hgreets', hoffers'⟩, hsync⟩
        obtain rfl := hgreets.unique hgreets'
        obtain rfl := hoffers.unique hoffers'
        exact (follows_iff rfl rfl).2 hsync
  | greeted h w next hgreets hoffers houtput =>
      have hnot : ¬ ∃ rest, OpensSession s rest := by
        rintro ⟨rest, next', hgreets', hoffers'⟩
        exact hoffers ⟨rest, hgreets.unique hgreets' ▸ hoffers'⟩
      refine ⟨iff_of_false ?_ (fun hall => hnot ⟨_, hall.1⟩), iff_of_false (by simp) hnot, rfl,
        fun hopens => absurd hopens hnot, fun _ _ => houtput,
        fun hno => absurd ⟨next, hgreets⟩ hno⟩
      intro hfollows
      obtain ⟨s', hrun, hexit, -⟩ := hfollows 0 (Nat.zero_le _)
      obtain rfl := Option.some.inj hrun
      cases hexit
  | refused h w hgreets houtput =>
      have hnot : ¬ ∃ rest, OpensSession s rest := fun ⟨rest, next, hgreets', _⟩ =>
        hgreets ⟨next, hgreets'⟩
      refine ⟨iff_of_false ?_ (fun hall => hnot ⟨_, hall.1⟩), iff_of_false (by simp) hnot, rfl,
        fun hopens => absurd hopens hnot, fun hgreets' => absurd hgreets' hgreets,
        fun _ => houtput⟩
      intro hfollows
      obtain ⟨s', hrun, hexit, -⟩ := hfollows 0 (Nat.zero_le _)
      obtain rfl := Option.some.inj hrun
      cases hexit

end BaleForGit
