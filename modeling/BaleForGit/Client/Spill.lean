import BaleForGit.Client.PktGrammar

set_option autoImplicit false

/-! # The payload of a clean request (`filter_process.rs`)

`drain_clean_payload` keeps a payload in memory until it exceeds the threshold, and moves it to a
temporary file then. `drainTotalLoop` is the loop of `Session.drainLoop` with the size it returns,
and `drain_payload` what it comes to, wherever the move falls among the packets. -/

namespace BaleForGit

/-- The bytes that are cleaned. -/
def CleanPayload.bytes : CleanPayload → List UInt8
  | .inMemory bytes => bytes
  | .spilled bytes => bytes

def CleanPayload.isInMemory : CleanPayload → Bool
  | .inMemory _ => true
  | .spilled _ => false

namespace Session

/-- A write to the temporary file, of the packet with index `i`. -/
def spillWrite (env : CleanEnv) (i : Nat) : Session Unit :=
  match env.spill i with
  | some text => fail (.error text)
  | none => pure ()

/-- The loop of `drain_clean_payload`, with the size of what has been read. -/
def drainTotalLoop (env : CleanEnv) (maxInline : Nat) :
    Nat → Nat → List UInt8 → Option (List UInt8) → Nat → Session (CleanPayload × Nat)
  | 0, _, _, _, _ => fail (.error ReadError.unexpectedEof.text)
  | rounds + 1, i, buf, spilled, total => do
    match ← read readPacket with
    | .flush =>
      match spilled with
      | none => return (.inMemory buf, total)
      | some file =>
        match env.spillFlush with
        | some text => fail (.error text)
        | none => return (.spilled file, total)
    | .data bytes =>
      if total + bytes.length > cleanPayloadCap then
        fail (.error ("pkt-line payload exceeded cap of " ++ toString cleanPayloadCap ++ " bytes"))
      else match spilled with
        | some file => do
          spillWrite env i
          drainTotalLoop env maxInline rounds (i + 1) buf (some (file ++ bytes))
            (total + bytes.length)
        | none =>
          if buf.length + bytes.length > maxInline then do
            spillWrite env i
            drainTotalLoop env maxInline rounds (i + 1) [] (some (buf ++ bytes))
              (total + bytes.length)
          else
            drainTotalLoop env maxInline rounds (i + 1) (buf ++ bytes) none (total + bytes.length)
    | other =>
      fail (.error ("expected pkt-line data or flush in clean payload, got " ++ other.debug))

/-- `drain_clean_payload`. -/
def drainWithTotal (env : CleanEnv) (maxInline : Nat) : Session (CleanPayload × Nat) := fun w =>
  drainTotalLoop env maxInline (w.input.length + 1) 0 [] none 0 w

/-- A session without a part of its result. -/
def payloadOnly (res : Except Halt (CleanPayload × Nat) × Wire) : Except Halt CleanPayload × Wire :=
  (res.1.map Prod.fst, res.2)

/-- **The two loops are one**, but for the size. -/
theorem drainLoop_eq_total (env : CleanEnv) (maxInline rounds i : Nat) (buf : List UInt8)
    (spilled : Option (List UInt8)) (total : Nat) (w : Wire) :
    drainLoop env maxInline rounds i buf spilled total w =
      payloadOnly (drainTotalLoop env maxInline rounds i buf spilled total w) := by
  induction rounds generalizing i buf spilled total w with
  | zero => rfl
  | succ rounds ih =>
      unfold drainLoop drainTotalLoop
      cases hread : read readPacket w with
      | mk res w' =>
          cases res with
          | error e =>
              rw [bind_error hread, bind_error hread]
              rfl
          | ok p =>
              rw [bind_ok hread, bind_ok hread]
              cases p with
              | delim => rfl
              | responseEnd => rfl
              | flush =>
                  cases spilled with
                  | none => rfl
                  | some file =>
                      simp only
                      cases env.spillFlush <;> rfl
              | data bytes =>
                  simp only
                  by_cases hcap : total + bytes.length > cleanPayloadCap
                  · rw [if_pos hcap, if_pos hcap]
                    rfl
                  · rw [if_neg hcap, if_neg hcap]
                    cases spilled with
                    | some file =>
                        simp only [spillWrite]
                        cases env.spill i with
                        | some text => rfl
                        | none => exact ih _ _ _ _ w'
                    | none =>
                        simp only
                        by_cases hbig : buf.length + bytes.length > maxInline
                        · rw [if_pos hbig, if_pos hbig]
                          unfold spillWrite
                          cases env.spill i with
                          | some text => rfl
                          | none => exact ih _ _ _ _ w'
                        · rw [if_neg hbig, if_neg hbig]
                          exact ih _ _ _ _ w'

theorem drainCleanPayload_eq_total (env : CleanEnv) (maxInline : Nat) (w : Wire) :
    drainCleanPayload env maxInline w = payloadOnly (drainWithTotal env maxInline w) :=
  drainLoop_eq_total env maxInline (w.input.length + 1) 0 [] none 0 w

end Session

/-! ## What comes out -/

/-- What a drained payload is, by its size. -/
def spilledPayload (maxInline : Nat) (bytes : List UInt8) : CleanPayload :=
  if maxInline < bytes.length then .spilled bytes else .inMemory bytes

theorem bytes_spilledPayload (maxInline : Nat) (bytes : List UInt8) :
    (spilledPayload maxInline bytes).bytes = bytes := by
  unfold spilledPayload
  split_ifs <;> rfl

theorem isInMemory_spilledPayload (maxInline : Nat) (bytes : List UInt8) :
    (spilledPayload maxInline bytes).isInMemory = true ↔ bytes.length ≤ maxInline := by
  unfold spilledPayload
  split_ifs with h
  · exact iff_of_false (by simp [CleanPayload.isInMemory]) (Nat.not_le.2 h)
  · exact iff_of_true rfl (Nat.le_of_not_lt h)

theorem read_of_readPacket {w : Wire} {p : Packet} {rest : List UInt8}
    (h : readPacket w.input = (.ok p, rest)) :
    Session.read readPacket w = (.ok p, { w with input := rest }) := by
  unfold Session.read
  rw [h]

section Drain

variable {env : CleanEnv} (hspill : ∀ i, env.spill i = none) (hflush : env.spillFlush = none)

include hspill in
theorem spillWrite_ok {α : Type} (i : Nat) (x : Session α) :
    (Session.spillWrite env i >>= fun _ => x) = x := by
  unfold Session.spillWrite
  rw [hspill i]
  rfl

include hspill hflush in
/-- Through the loop the bytes so far are in memory, or in the file once there are more than the
    threshold. -/
theorem drainTotalLoop_payload {s rest : List UInt8} {chunks : List (List UInt8)}
    (h : Payload s chunks rest) {maxInline rounds i : Nat} (hrounds : chunks.length < rounds)
    {buf bytes : List UInt8} {spilled : Option (List UInt8)}
    (hstate : DrainState maxInline buf spilled bytes)
    (hcap : (bytes ++ chunks.flatten).length ≤ cleanPayloadCap) {w : Wire} (hin : w.input = s) :
    Session.drainTotalLoop env maxInline rounds i buf spilled bytes.length w =
      (.ok (spilledPayload maxInline (bytes ++ chunks.flatten), (bytes ++ chunks.flatten).length),
        { w with input := rest }) := by
  induction h generalizing rounds i buf bytes spilled w with
  | flush h =>
      obtain ⟨n, rfl⟩ : ∃ n, rounds = n + 1 := ⟨rounds - 1, by simp at hrounds; omega⟩
      unfold Session.drainTotalLoop
      rw [Session.bind_ok (read_of_readPacket (hin ▸ h)), List.flatten_nil, List.append_nil]
      unfold spilledPayload
      unfold DrainState at hstate
      cases spilled with
      | none =>
          obtain ⟨rfl, hle⟩ := hstate
          rw [if_neg (Nat.not_lt.2 hle)]
          rfl
      | some file =>
          obtain ⟨rfl, hlt⟩ := hstate
          rw [if_pos hlt]
          simp only [hflush]
          rfl
  | @data s next rest c chunks h hrest ih =>
      obtain ⟨n, rfl⟩ : ∃ n, rounds = n + 1 := ⟨rounds - 1, by simp at hrounds; omega⟩
      have hlen : bytes.length + c.length = (bytes ++ c).length := (List.length_append ..).symm
      rw [List.flatten_cons, ← List.append_assoc] at hcap ⊢
      have hbelow : ¬ (bytes ++ c).length > cleanPayloadCap := by
        rw [List.length_append] at hcap
        omega
      have hnext : ∀ buf' spilled', DrainState maxInline buf' spilled' (bytes ++ c) →
          Session.drainTotalLoop env maxInline n (i + 1) buf' spilled' (bytes ++ c).length
            { w with input := next } = _ :=
        fun buf' spilled' hstate' => ih (by simpa using hrounds) hstate' hcap rfl
      unfold Session.drainTotalLoop
      rw [Session.bind_ok (read_of_readPacket (hin ▸ h))]
      simp only [hlen]
      rw [if_neg hbelow]
      unfold DrainState at hstate
      cases spilled with
      | some file =>
          obtain ⟨rfl, hlt⟩ := hstate
          simp only [spillWrite_ok hspill]
          exact hnext buf (some (file ++ c)) ⟨rfl, by rw [← hlen]; omega⟩
      | none =>
          obtain ⟨rfl, hle⟩ := hstate
          simp only [spillWrite_ok hspill, hlen]
          split_ifs with hbig
          · exact hnext [] (some (buf ++ c)) ⟨rfl, hbig⟩
          · exact hnext (buf ++ c) none ⟨rfl, Nat.le_of_not_lt hbig⟩

include hspill hflush in
/-- **What is drained**: the bytes of the packets and their number, in memory unless they are more
    than the threshold, and the reader stands after the flush. -/
theorem drain_payload {w : Wire} {rest : List UInt8} {chunks : List (List UInt8)}
    (h : Payload w.input chunks rest) (hcap : chunks.flatten.length ≤ cleanPayloadCap)
    (maxInline : Nat) : ∃ payload,
      Session.drainWithTotal env maxInline w =
        (.ok (payload, chunks.flatten.length), { w with input := rest }) ∧
      payload.bytes = chunks.flatten ∧
      (payload.isInMemory = true ↔ chunks.flatten.length ≤ maxInline) := by
  refine ⟨spilledPayload maxInline chunks.flatten, ?_, bytes_spilledPayload _ _,
    isInMemory_spilledPayload _ _⟩
  have hstart : DrainState maxInline [] none [] := ⟨rfl, Nat.zero_le _⟩
  exact drainTotalLoop_payload hspill hflush h (Nat.lt_succ_of_lt h.length_lt) hstart hcap rfl

end Drain

/-- A disk on which everything goes well. -/
def goodDisk : CleanEnv :=
  ⟨fun _ => none, none, true, none, fun _ => .miss, none, fun _ => .ok ""⟩

/-- Two packets, the second of which exceeds a threshold of one byte: both bytes end up in the file. -/
theorem drain_two_packets : ∃ payload,
    Session.drainWithTotal goodDisk 1 ⟨asBytes "0005a0005b0000c", [], false⟩ =
      (.ok (payload, 2), ⟨asBytes "c", [], false⟩) ∧
    payload.bytes = asBytes "ab" ∧ payload.isInMemory = false := by
  have hfirst : readPacket (asBytes "0005a0005b0000c") = (.ok (.data [97]), asBytes "0005b0000c") := by
    decide
  have hsecond : readPacket (asBytes "0005b0000c") = (.ok (.data [98]), asBytes "0000c") := by
    decide
  have hpayload : Payload (asBytes "0005a0005b0000c") [[97], [98]] (asBytes "c") :=
    .data hfirst (.data hsecond (.flush (by decide)))
  have hspill : ∀ i, goodDisk.spill i = none := fun _ => rfl
  have hflush : goodDisk.spillFlush = none := rfl
  obtain ⟨payload, hdrain, hbytes, hmemory⟩ := drain_payload hspill hflush
    (w := ⟨asBytes "0005a0005b0000c", [], false⟩) hpayload (by decide) 1
  refine ⟨payload, hdrain, hbytes, ?_⟩
  rw [← Bool.not_eq_true, hmemory]
  decide

end BaleForGit
