import BaleForGit.Library.Machine
import BaleForGit.Client.FilterRequests

set_option autoImplicit false

/-! # Whether the filter reader keeps its place

The loop reads the next header list where the last request left the reader. A request that fails
after its payload was read leaves it behind the payload's flush; one that fails in the middle leaves
it in the middle, and the rest of the payload is read as header lines. An error that is not caught,
or whose report does not fit a packet, ends the process.

`neverDesyncs_iff` says when neither happens, for a whole sequence of requests, from what each of
them finds. -/

namespace BaleForGit

section Sync

variable (maxInline : Nat)

/-- What a request needs for the next one to be read from its start: header lines that are UTF-8; a
    payload that is read to its end (within the cap of its command, and with a temporary file that
    can be written if it is large); a runtime that starts, for a smudge; and no panic, and no error
    line that is too long for a packet. -/
def RequestInSync (runtime : Bool) (r : FilterRequest) (env : RequestEnv) : Prop :=
  match r.lines with
  | none => False
  | some lines =>
    if commandOf lines = "clean" then
      Drains env.clean maxInline 0 0 r.payload ∧
        Reported "clean" ((cleanOutcome env maxInline runtime r.payload.flatten).1.map (fun _ => ()))
    else if commandOf lines = "smudge" then
      RuntimeStarts env runtime ∧ r.size ≤ smudgePayloadCap ∧
        Reported "smudge" (smudgeOutcome env r.payload.flatten).2
    else r.size ≤ drainPayloadCap ∧ LineFits (Session.unknownLine (commandOf lines))

/-- Whether the runtime has been started after a request. -/
def runtimeAfter (runtime : Bool) (r : FilterRequest) (env : RequestEnv) : Bool :=
  match r.lines with
  | none => runtime
  | some lines =>
    if commandOf lines = "clean" then (cleanOutcome env maxInline runtime r.payload.flatten).2
    else if commandOf lines = "smudge" then true
    else runtime

/-- Every request of a sequence, in the state of the runtime that it comes to. -/
def AllInSync : Bool → List (FilterRequest × RequestEnv) → Prop
  | _, [] => True
  | runtime, v :: visits =>
    RequestInSync maxInline runtime v.1 v.2 ∧
      AllInSync (runtimeAfter maxInline runtime v.1 v.2) visits

/-- After as many rounds as requests have been sent, for each number of them: the process goes on,
    the reader stands at the next request, and the header lists served are those of the requests. -/
def Follows (s : FilterProcess) (visits : List (FilterRequest × RequestEnv)) : Prop :=
  ∀ k ≤ visits.length, ∃ s', Machine.run (loopStep maxInline) s ((visits.take k).map Prod.snd) =
      some s' ∧ s'.exit = none ∧
    s'.wire.input = encodeRequests ((visits.drop k).map Prod.fst) ∧
    s'.log.map some = s.log.map some ++ (visits.take k).map (fun v => v.1.lines)

/-- The filter reader keeps its place all through a sequence of requests. -/
def NeverDesyncs (visits : List (FilterRequest × RequestEnv)) : Prop :=
  Follows maxInline (FilterProcess.start (encodeRequests (visits.map Prod.fst))) visits

end Sync

/-! ## One request -/

section Step

variable {maxInline : Nat} {s : FilterProcess} {env : RequestEnv} {r : FilterRequest}
  {rest : List UInt8}

/-- What is unread of a payload has a flush at least. -/
theorem unread_ne (unread : List (List UInt8)) (rest : List UInt8) :
    encodePackets (payloadPackets unread) ++ rest ≠ rest := by
  intro h
  have hlen := encodePackets_length_ge (payloadPackets unread)
  have hcount : (payloadPackets unread).length = unread.length + 1 := by simp [payloadPackets]
  have heq := congrArg List.length h
  rw [List.length_append] at heq
  omega

theorem loopStep_inSync (hexit : s.exit = none) (hin : s.wire.input = r.encode ++ rest)
    (h : RequestInSync maxInline s.wire.runtime r env) :
    ∃ s' lines, loopStep maxInline s env = some s' ∧ r.lines = some lines ∧ s'.exit = none ∧
      s'.wire.input = rest ∧ s'.log = s.log ++ [lines] ∧
      s'.wire.runtime = runtimeAfter maxInline s.wire.runtime r env := by
  unfold RequestInSync at h
  unfold runtimeAfter
  cases hlines : r.lines with
  | none => simp [hlines] at h
  | some lines =>
      simp only [hlines] at h ⊢
      have hinput : (afterHeaders s.wire r rest).input =
          encodePackets (payloadPackets r.payload) ++ rest := rfl
      split_ifs at h ⊢ with hclean hsmudge
      · obtain ⟨hdrains, hreported⟩ := h
        have hd := (dispatch_clean env maxInline r.payload_le hinput).1 hdrains
        exact ⟨_, lines, (loopStep_request hexit hin hlines hclean hd).1 hreported, rfl, rfl, rfl, rfl, rfl⟩
      · obtain ⟨hstarts, hle, hreported⟩ := h
        have hd := (dispatch_smudge env maxInline r.payload_le hinput).2.1
          hstarts hle
        exact ⟨_, lines, (loopStep_request hexit hin hlines hsmudge hd).1 hreported, rfl, rfl, rfl, rfl, rfl⟩
      · obtain ⟨hle, hfits⟩ := h
        have hd := (dispatch_unknown env maxInline r.payload_le hinput hclean hsmudge).1 hle
        exact ⟨_, lines, (loopStep_request hexit hin hlines rfl hd).1 hfits, rfl, rfl, rfl, rfl, rfl⟩

/-- A dispatch that does not go on, or leaves the reader in the payload, loses its place. -/
theorem loopStep_loses (hexit : s.exit = none) (hin : s.wire.input = r.encode ++ rest)
    {lines : List String} (hlines : r.lines = some lines) {command : String}
    (hcommand : commandOf lines = command) {w' : Wire} {written : List Packet} {goesOn : Prop}
    (hdispatch : Dispatched env maxInline command (afterHeaders s.wire r rest) w' written goesOn)
    (hbad : w'.input = rest → ¬ goesOn) {s' : FilterProcess}
    (hstep : loopStep maxInline s env = some s') : s'.exit ≠ none ∨ s'.wire.input ≠ rest := by
  obtain ⟨hgo, hstop⟩ := loopStep_request hexit hin hlines hcommand hdispatch
  by_cases hg : goesOn
  · obtain rfl := Option.some.inj ((hgo hg).symm.trans hstep)
    exact Or.inr (fun heq => hbad heq hg)
  · obtain ⟨h, hstop⟩ := hstop hg
    obtain rfl := Option.some.inj (hstop.symm.trans hstep)
    exact Or.inl (by simp)

theorem loopStep_notInSync (hexit : s.exit = none) (hin : s.wire.input = r.encode ++ rest)
    (h : ¬ RequestInSync maxInline s.wire.runtime r env) {s' : FilterProcess}
    (hstep : loopStep maxInline s env = some s') : s'.exit ≠ none ∨ s'.wire.input ≠ rest := by
  unfold RequestInSync at h
  cases hlines : r.lines with
  | none =>
      obtain ⟨halt, left, hend⟩ := loopStep_invalid maxInline env hexit hin
        hlines
      obtain rfl := Option.some.inj (hend.symm.trans hstep)
      exact Or.inl (by simp)
  | some lines =>
      simp only [hlines] at h
      have hinput : (afterHeaders s.wire r rest).input =
          encodePackets (payloadPackets r.payload) ++ rest := rfl
      split_ifs at h with hclean hsmudge
      · obtain ⟨hok, hbad⟩ := dispatch_clean env maxInline r.payload_le hinput
        by_cases hdrains : Drains env.clean maxInline 0 0 r.payload
        · exact loopStep_loses hexit hin hlines hclean (hok hdrains)
            (fun _ hr => h ⟨hdrains, hr⟩) hstep
        · obtain ⟨text, unread, hd⟩ := hbad hdrains
          exact loopStep_loses hexit hin hlines hclean hd (fun heq => absurd heq (unread_ne unread rest))
            hstep
      · obtain ⟨hdown, hok, hbad⟩ := dispatch_smudge env maxInline r.payload_le hinput
        by_cases hstarts : RuntimeStarts env s.wire.runtime
        · by_cases hle : r.size ≤ smudgePayloadCap
          · exact loopStep_loses hexit hin hlines hsmudge (hok hstarts hle)
              (fun _ hr => h ⟨hstarts, hle, hr⟩) hstep
          · obtain ⟨text, unread, hd⟩ := hbad hstarts hle
            exact loopStep_loses hexit hin hlines hsmudge hd
              (fun heq => absurd heq (unread_ne unread rest)) hstep
        · exact loopStep_loses hexit hin hlines hsmudge (hdown hstarts) (fun _ => id) hstep
      · obtain ⟨hok, hbad⟩ := dispatch_unknown env maxInline r.payload_le hinput hclean
          hsmudge
        by_cases hle : r.size ≤ drainPayloadCap
        · exact loopStep_loses hexit hin hlines rfl (hok hle) (fun _ hfits => h ⟨hle, hfits⟩) hstep
        · obtain ⟨unread, hd⟩ := hbad hle
          exact loopStep_loses hexit hin hlines rfl hd (fun _ => id) hstep

end Step

/-! ## A sequence of requests -/

theorem encodeRequests_cons (r : FilterRequest) (rs : List FilterRequest) :
    encodeRequests (r :: rs) = r.encode ++ encodeRequests rs := rfl

theorem follows_iff {maxInline : Nat} {visits : List (FilterRequest × RequestEnv)}
    {s : FilterProcess} (hexit : s.exit = none)
    (hin : s.wire.input = encodeRequests (visits.map Prod.fst)) :
    Follows maxInline s visits ↔ AllInSync maxInline s.wire.runtime visits := by
  induction visits generalizing s with
  | nil =>
      refine iff_of_true (fun k hk => ?_) trivial
      obtain rfl : k = 0 := Nat.le_zero.1 hk
      exact ⟨s, rfl, hexit, hin, by simp⟩
  | cons v visits ih =>
      rw [List.map_cons, encodeRequests_cons] at hin
      constructor
      · intro hfollows
        obtain ⟨s₁, hrun, hexit₁, hin₁, -⟩ := hfollows 1 (by simp)
        obtain ⟨s₁', hstep, hrest⟩ := Machine.run_cons_eq_some hrun
        obtain rfl := Option.some.inj hrest
        have hsync : RequestInSync maxInline s.wire.runtime v.1 v.2 := by
          by_contra hnot
          exact (loopStep_notInSync hexit hin hnot hstep).elim (fun h => h hexit₁) (fun h => h hin₁)
        obtain ⟨s₂, lines, hstep₂, hlines, -, -, hlog, hruntime⟩ :=
          loopStep_inSync hexit hin hsync
        obtain rfl := Option.some.inj (hstep.symm.trans hstep₂)
        refine ⟨hsync, ?_⟩
        rw [← hruntime, ← ih hexit₁ hin₁]
        intro k hk
        obtain ⟨s', hrun', hexit', hin', hlog'⟩ := hfollows (k + 1) (by simpa using hk)
        obtain ⟨s₁', hstep', hrun'⟩ := Machine.run_cons_eq_some hrun'
        obtain rfl := Option.some.inj (hstep.symm.trans hstep')
        refine ⟨s', hrun', hexit', hin', ?_⟩
        rw [hlog', hlog, List.take_succ_cons, List.map_cons, List.map_append, List.append_assoc,
          hlines]
        rfl
      · rintro ⟨hsync, hall⟩ k hk
        obtain ⟨s₁, lines, hstep, hlines, hexit₁, hin₁, hlog, hruntime⟩ :=
          loopStep_inSync hexit hin hsync
        cases k with
        | zero => exact ⟨s, rfl, hexit, by rw [hin]; rfl, by simp⟩
        | succ k =>
            rw [← hruntime, ← ih hexit₁ hin₁] at hall
            obtain ⟨s', hrun', hexit', hin', hlog'⟩ := hall k (by simpa using hk)
            refine ⟨s', ?_, hexit', hin', ?_⟩
            · rw [List.take_succ_cons, List.map_cons, Machine.run, hstep]
              exact hrun'
            · rw [hlog', hlog, List.take_succ_cons, List.map_cons, List.map_append,
                List.append_assoc, hlines]
              rfl

/-- **When the filter reader keeps its place**: in every sequence of requests, exactly if each of them
    is read to its end and comes to an answer. -/
theorem neverDesyncs_iff (maxInline : Nat) (visits : List (FilterRequest × RequestEnv)) :
    NeverDesyncs maxInline visits ↔ AllInSync maxInline false visits :=
  follows_iff (s := FilterProcess.start (encodeRequests (visits.map Prod.fst))) rfl rfl

namespace Sample

/-- Everything about a request goes well, and nothing is in the cache. -/
def quietEnv : RequestEnv where
  clean := ⟨fun _ => none, none, true, none, fun _ => .miss, none, fun _ => .ok "pointer\n"⟩
  reconstruct _ := .error (.error "smudge: input is not a bale pointer")
  runtime := none

/-- The smudge of a file of 8193 bytes that is no pointer. -/
def largeSmudge : FilterRequest where
  headers := [asBytes "command=smudge\n", asBytes "pathname=a.bin\n"]
  payload := [List.replicate 8193 0]
  headers_ne := by simp
  headers_le := by decide
  payload_le := by
    intro c hc
    rw [List.mem_singleton.1 hc, List.length_replicate]
    decide

end Sample

/-- A smudge of more than 8192 bytes leaves its flush unread, and the process takes that for the end
    of the session. -/
theorem large_smudge_desyncs : ¬ NeverDesyncs 4294967296 [(Sample.largeSmudge, Sample.quietEnv)] := by
  intro h
  obtain ⟨s, hrun, hexit, hin, -⟩ := h 1 (Nat.le_refl 1)
  obtain ⟨s', hstep, hrest⟩ := Machine.run_cons_eq_some hrun
  obtain rfl := Option.some.inj hrest
  have hlines : Sample.largeSmudge.lines = some ["command=smudge", "pathname=a.bin"] := by decide
  have hsmudge : commandOf ["command=smudge", "pathname=a.bin"] = "smudge" := by decide
  have hsize : Sample.largeSmudge.size = 8193 := by
    change [List.replicate 8193 (0 : UInt8)].flatten.length = 8193
    rw [List.flatten_cons, List.flatten_nil, List.append_nil, List.length_replicate]
  have hnot : ¬ RequestInSync 4294967296 false Sample.largeSmudge Sample.quietEnv := by
    unfold RequestInSync
    simp only [hlines, hsmudge, hsize]
    rw [if_pos trivial]
    rintro ⟨-, hle, -⟩
    exact absurd hle (by decide)
  have hinput : (FilterProcess.start (encodeRequests [Sample.largeSmudge])).wire.input =
      Sample.largeSmudge.encode ++ [] := rfl
  exact (loopStep_notInSync rfl hinput hnot hstep).elim (fun h => h hexit) (fun h => h hin)

end BaleForGit
