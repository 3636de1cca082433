import BaleForGit.Client.FilterRequests

set_option autoImplicit false

/-! # The grammar of a stream of packets (`pktline.rs`)

`Begins` is the grammar: four bytes that tell a length, and so many bytes. `readPacket_eq_ok` says
that a packet is read exactly where one begins, by the header as the integer parser takes it;
`readsGrammar_iff` compares that header with four hexadecimal digits up to the greatest length.

`Payload` is a stream of data packets up to a flush, however their headers are spelled. The list
readers are determined on it, and with them the round trips of the writers. -/

namespace BaleForGit

/-! ## The grammar -/

/-- A stream that begins with a packet, and the rest of it, when `len` tells the length of a packet
    from its header. -/
inductive Begins (len : List UInt8 → Option Nat) : List UInt8 → Packet → List UInt8 → Prop
  | flush {header rest : List UInt8} (hheader : header.length = 4) (hlen : len header = some 0) :
      Begins len (header ++ rest) .flush rest
  | delim {header rest : List UInt8} (hheader : header.length = 4) (hlen : len header = some 1) :
      Begins len (header ++ rest) .delim rest
  | responseEnd {header rest : List UInt8} (hheader : header.length = 4)
      (hlen : len header = some 2) : Begins len (header ++ rest) .responseEnd rest
  | data {header bytes rest : List UInt8} {n : Nat} (hheader : header.length = 4)
      (hlen : len header = some n) (hn : 4 ≤ n) (hbytes : bytes.length = n - 4) :
      Begins len (header ++ (bytes ++ rest)) (.data bytes) rest

/-- Hexadecimal digits, as a number. -/
def hexNumber (digits : List UInt8) : Option Nat :=
  digits.foldlM (fun acc b => (hexValue b).map (fun d => acc * 16 + d)) 0

/-- The length a header tells by the grammar: all of it digits, 65520 at most. -/
def grammarLength (header : List UInt8) : Option Nat :=
  (hexNumber header).filter (fun n => n ≤ 65520)

/-- What `read_packet` does after the header. -/
def readBody (header : List UInt8) : PktReader Packet :=
  match headerLength header with
  | none =>
    match fromUtf8 header with
    | none => PktReader.fail (.invalidData "non-utf8 pkt-line header")
    | some text => PktReader.fail (.invalidData ("bad pkt-line header '" ++ text ++ "'"))
  | some len =>
    if len = 0 then return .flush
    else if len = 1 then return .delim
    else if len = 2 then return .responseEnd
    else if len < 4 then
      PktReader.fail (.invalidData ("undersized pkt-line length " ++ toString len))
    else do
      let bytes ← PktReader.readExact (len - 4)
      return .data bytes

theorem readPacket_append {header : List UInt8} (hheader : header.length = 4) (tail : List UInt8) :
    readPacket (header ++ tail) = readBody header tail := by
  unfold readPacket
  rw [PktReader.bind_ok (PktReader.readExact_append hheader)]
  rfl

theorem readPacket_short {s : List UInt8} (h : s.length < 4) :
    readPacket s = (.error .unexpectedEof, []) := by
  unfold readPacket
  refine PktReader.bind_error ?_
  unfold PktReader.readExact
  rw [if_neg (Nat.not_le.2 h)]

/-- The payload of a packet is there, or the stream is at its end. -/
theorem readExact_eq_ok {n : Nat} {s bytes rest : List UInt8} :
    PktReader.readExact n s = (.ok bytes, rest) ↔ s = bytes ++ rest ∧ bytes.length = n := by
  constructor
  · intro h
    unfold PktReader.readExact at h
    split_ifs at h with hle
    · simp only [Prod.mk.injEq, Except.ok.injEq] at h
      obtain ⟨rfl, rfl⟩ := h
      exact ⟨(List.take_append_drop n s).symm, List.length_take_of_le hle⟩
    · simp at h
  · rintro ⟨rfl, hlen⟩
    exact PktReader.readExact_append hlen

theorem readData_eq_ok {n : Nat} {s rest : List UInt8} {p : Packet} :
    ((do
      let bytes ← PktReader.readExact n
      return Packet.data bytes) : PktReader Packet) s = (.ok p, rest) ↔
      ∃ bytes, p = .data bytes ∧ s = bytes ++ rest ∧ bytes.length = n := by
  cases hread : PktReader.readExact n s with
  | mk res left =>
      cases res with
      | error e =>
          rw [PktReader.bind_error hread]
          refine iff_of_false (by simp) ?_
          rintro ⟨bytes, -, h⟩
          rw [readExact_eq_ok.2 h] at hread
          cases hread
      | ok bytes =>
          rw [PktReader.bind_ok hread]
          obtain ⟨rfl, hlen⟩ := readExact_eq_ok.1 hread
          change (Except.ok (Packet.data bytes), left) = _ ↔ _
          constructor
          · intro h
            obtain ⟨hp, rfl⟩ := Prod.mk.inj h
            exact ⟨bytes, (Except.ok.inj hp).symm, rfl, hlen⟩
          · rintro ⟨bytes', rfl, happend, hlen'⟩
            obtain ⟨rfl, rfl⟩ := List.append_inj happend (by rw [hlen, hlen'])
            rfl

theorem begins_of_readPacket {s rest : List UInt8} {p : Packet} (h : readPacket s = (.ok p, rest)) :
    Begins headerLength s p rest := by
  by_cases hshort : s.length < 4
  · rw [readPacket_short hshort] at h
    simp at h
  · have hheader : (s.take 4).length = 4 := List.length_take_of_le (Nat.le_of_not_lt hshort)
    rw [← List.take_append_drop 4 s] at h ⊢
    rw [readPacket_append hheader] at h
    unfold readBody at h
    cases hlen : headerLength (s.take 4) with
    | none =>
        rw [hlen] at h
        cases hutf : fromUtf8 (s.take 4) <;> simp [hutf, PktReader.fail] at h
    | some n =>
        rw [hlen] at h
        simp only at h
        split_ifs at h with h0 h1 h2 h4
        · obtain ⟨hp, rfl⟩ := Prod.mk.inj h
          rw [← Except.ok.inj hp]
          exact Begins.flush hheader (hlen.trans (congrArg some h0))
        · obtain ⟨hp, rfl⟩ := Prod.mk.inj h
          rw [← Except.ok.inj hp]
          exact Begins.delim hheader (hlen.trans (congrArg some h1))
        · obtain ⟨hp, rfl⟩ := Prod.mk.inj h
          rw [← Except.ok.inj hp]
          exact Begins.responseEnd hheader (hlen.trans (congrArg some h2))
        · simp [PktReader.fail] at h
        · obtain ⟨bytes, rfl, hdrop, hbytes⟩ := readData_eq_ok.1 h
          rw [hdrop]
          exact Begins.data hheader hlen (Nat.le_of_not_lt h4) hbytes

/-- What follows a header that is parsed. -/
theorem readPacket_of_header {header : List UInt8} {n : Nat} (hheader : header.length = 4)
    (hlen : headerLength header = some n) (tail : List UInt8) :
    readPacket (header ++ tail) =
      (if n = 0 then (pure .flush : PktReader Packet)
      else if n = 1 then pure .delim
      else if n = 2 then pure .responseEnd
      else if n < 4 then
        PktReader.fail (.invalidData ("undersized pkt-line length " ++ toString n))
      else do
        let bytes ← PktReader.readExact (n - 4)
        return .data bytes) tail := by
  rw [readPacket_append hheader]
  unfold readBody
  rw [hlen]

/-- **A packet is read where one begins**, by the header as it is parsed. -/
theorem readPacket_eq_ok {s rest : List UInt8} {p : Packet} :
    readPacket s = (.ok p, rest) ↔ Begins headerLength s p rest := by
  refine ⟨begins_of_readPacket, fun h => ?_⟩
  cases h with
  | flush hheader hlen => exact readPacket_of_header hheader hlen _
  | delim hheader hlen => exact readPacket_of_header hheader hlen _
  | responseEnd hheader hlen => exact readPacket_of_header hheader hlen _
  | data hheader hlen hn hbytes =>
      rw [readPacket_of_header hheader hlen, if_neg (by omega), if_neg (by omega),
        if_neg (by omega), if_neg (by omega)]
      exact readData_eq_ok.2 ⟨_, rfl, rfl, hbytes⟩

/-! ## What the integer parser takes besides -/

theorem headerLength_plus (digits : List UInt8) (hne : digits ≠ []) :
    headerLength (43 :: digits) = hexNumber digits := by
  unfold headerLength
  simp only
  rw [if_neg (by simpa using hne)]
  rfl

theorem headerLength_digits {header : List UInt8} (hne : header ≠ [])
    (hplus : header.head? ≠ some 43) : headerLength header = hexNumber header := by
  unfold headerLength
  split
  · rename_i rest
    exact absurd rfl hplus
  · simp only
    rw [if_neg (by simpa using hne)]
    rfl

theorem hexNumber_plus (digits : List UInt8) : hexNumber (43 :: digits) = none := rfl

/-- A header with a sign: a plus, and three digits. -/
def Signed (header : List UInt8) (n : Nat) : Prop :=
  ∃ digits, header = 43 :: digits ∧ hexNumber digits = some n

/-- A header of digits that tells more than a packet may have. -/
def Oversized (header : List UInt8) (n : Nat) : Prop := hexNumber header = some n ∧ 65520 < n

/-- What a header tells to the parser: what it tells by the grammar, a length with a sign, or one
    above the greatest. -/
theorem headerLength_iff {header : List UInt8} (hheader : header.length = 4) {n : Nat} :
    headerLength header = some n ↔
      grammarLength header = some n ∨ Signed header n ∨ Oversized header n := by
  have hgrammar : grammarLength header = some n ↔ hexNumber header = some n ∧ n ≤ 65520 := by
    unfold grammarLength
    rw [Option.filter_eq_some_iff, decide_eq_true_eq]
  rw [hgrammar]
  unfold Signed Oversized
  cases header with
  | nil => cases hheader
  | cons b digits =>
      by_cases hplus : b = 43
      · subst hplus
        have hne : digits ≠ [] := by
          rintro rfl
          cases hheader
        rw [headerLength_plus digits hne, hexNumber_plus]
        simp
      · rw [headerLength_digits (List.cons_ne_nil _ _) (by simpa using hplus)]
        constructor
        · intro h
          rcases Nat.lt_or_ge 65520 n with hbig | hle
          · exact Or.inr (Or.inr ⟨h, hbig⟩)
          · exact Or.inl ⟨h, hle⟩
        · rintro (⟨h, -⟩ | ⟨digits', heq, -⟩ | ⟨h, -⟩)
          · exact h
          · exact absurd (List.cons.inj heq).1 hplus
          · exact h

/-- A stream on which the reader does what the grammar says: it reads the packet that the stream
    begins with, and leaves what comes after; and it reads nothing when there is none. -/
def ReadsGrammar (s : List UInt8) : Prop :=
  ∀ p rest, readPacket s = (.ok p, rest) ↔ Begins grammarLength s p rest

/-- The length of a packet that is there. -/
def HasPacket (n : Nat) (tail : List UInt8) : Prop :=
  n = 0 ∨ n = 1 ∨ n = 2 ∨ (4 ≤ n ∧ n - 4 ≤ tail.length)

/-- A stream that begins with a signed or an oversized header, and has the packet it tells. -/
def BeginsOdd (s : List UInt8) : Prop :=
  ∃ header tail n, s = header ++ tail ∧ header.length = 4 ∧
    (Signed header n ∨ Oversized header n) ∧ HasPacket n tail

theorem grammar_of_header {header : List UInt8} (hheader : header.length = 4) {n : Nat}
    (hlen : grammarLength header = some n) : headerLength header = some n :=
  (headerLength_iff hheader).2 (Or.inl hlen)

/-- What the grammar takes, the reader takes. -/
theorem Begins.widen {s rest : List UInt8} {p : Packet} (h : Begins grammarLength s p rest) :
    Begins headerLength s p rest := by
  cases h with
  | flush hheader hlen => exact Begins.flush hheader (grammar_of_header hheader hlen)
  | delim hheader hlen => exact Begins.delim hheader (grammar_of_header hheader hlen)
  | responseEnd hheader hlen => exact Begins.responseEnd hheader (grammar_of_header hheader hlen)
  | data hheader hlen hn hbytes =>
      exact Begins.data hheader (grammar_of_header hheader hlen) hn hbytes

/-- What begins a stream, its header, and what it tells. -/
theorem Begins.header {len : List UInt8 → Option Nat} {s rest : List UInt8} {p : Packet}
    (h : Begins len s p rest) : ∃ header tail n, s = header ++ tail ∧ header.length = 4 ∧
      len header = some n ∧ HasPacket n tail := by
  cases h with
  | flush hheader hlen => exact ⟨_, _, _, rfl, hheader, hlen, Or.inl rfl⟩
  | delim hheader hlen => exact ⟨_, _, _, rfl, hheader, hlen, Or.inr (Or.inl rfl)⟩
  | responseEnd hheader hlen => exact ⟨_, _, _, rfl, hheader, hlen, Or.inr (Or.inr (Or.inl rfl))⟩
  | data hheader hlen hn hbytes =>
      exact ⟨_, _, _, rfl, hheader, hlen, Or.inr (Or.inr (Or.inr ⟨hn, by
        rw [List.length_append, hbytes]
        exact Nat.le_add_right _ _⟩))⟩

/-- A header with its packet begins a stream. -/
theorem exists_begins {len : List UInt8 → Option Nat} {header tail : List UInt8} {n : Nat}
    (hheader : header.length = 4) (hlen : len header = some n) (h : HasPacket n tail) :
    ∃ p rest, Begins len (header ++ tail) p rest := by
  rcases h with rfl | rfl | rfl | ⟨hn, htail⟩
  · exact ⟨_, _, Begins.flush hheader hlen⟩
  · exact ⟨_, _, Begins.delim hheader hlen⟩
  · exact ⟨_, _, Begins.responseEnd hheader hlen⟩
  · refine ⟨.data (tail.take (n - 4)), tail.drop (n - 4), ?_⟩
    have hdata : Begins len (header ++ (tail.take (n - 4) ++ tail.drop (n - 4)))
        (.data (tail.take (n - 4))) (tail.drop (n - 4)) :=
      Begins.data hheader hlen hn (List.length_take_of_le htail)
    rwa [List.take_append_drop] at hdata

/-- **Where the reader keeps to the grammar**: on all streams that do not begin with a packet whose
    header has a sign or tells more than 65520. -/
theorem readsGrammar_iff (s : List UInt8) : ReadsGrammar s ↔ ¬ BeginsOdd s := by
  have hodd : ∀ {header : List UInt8} {n : Nat}, Signed header n ∨ Oversized header n →
      grammarLength header = none := by
    rintro header n (⟨digits, rfl, -⟩ | ⟨hnum, hbig⟩)
    · rfl
    · unfold grammarLength
      rw [hnum, Option.filter_some, if_neg (by simpa using hbig)]
  constructor
  · rintro hreads ⟨header, tail, n, rfl, hheader, hn, htail⟩
    obtain ⟨p, rest, hbegins⟩ := exists_begins hheader
      ((headerLength_iff hheader).2 (Or.inr hn)) htail
    have hgrammar := (hreads p rest).1 (readPacket_eq_ok.2 hbegins)
    obtain ⟨header', tail', n', happend, hheader', hlen', -⟩ := hgrammar.header
    obtain ⟨rfl, -⟩ := List.append_inj happend (by rw [hheader, hheader'])
    rw [hodd hn] at hlen'
    cases hlen'
  · intro hnot p rest
    rw [readPacket_eq_ok]
    refine ⟨fun h => ?_, Begins.widen⟩
    obtain ⟨header, tail, n, rfl, hheader, hlen, htail⟩ := h.header
    rcases (headerLength_iff hheader).1 hlen with hgrammar | hn
    · obtain ⟨p', rest', hbegins⟩ := exists_begins hheader hgrammar htail
      have hread := readPacket_eq_ok.2 hbegins.widen
      rw [readPacket_eq_ok.2 h, Prod.mk.injEq, Except.ok.injEq] at hread
      rw [hread.1, hread.2]
      exact hbegins
    · exact absurd ⟨header, tail, n, rfl, hheader, hn, htail⟩ hnot

/-- `+005a` is taken as a packet of five bytes. -/
theorem signed_header_read : ¬ ReadsGrammar (asBytes "+005a") := by
  intro h
  have hread := (h (.data [97]) []).1 (by decide)
  obtain ⟨header, tail, n, happend, hheader, hlen, -⟩ := hread.header
  have hbytes : asBytes "+005a" = [43, 48, 48, 53] ++ [97] := by decide
  obtain ⟨rfl, -⟩ := List.append_inj (hbytes.symm.trans happend) hheader.symm
  have hnone : grammarLength [43, 48, 48, 53] = none := by decide
  rw [hnone] at hlen
  cases hlen

/-! ## Payloads -/

/-- A stream of data packets up to a flush, and what comes after it. -/
inductive Payload : List UInt8 → List (List UInt8) → List UInt8 → Prop
  | flush {s rest : List UInt8} (h : readPacket s = (.ok .flush, rest)) : Payload s [] rest
  | data {s next rest bytes : List UInt8} {chunks : List (List UInt8)}
      (h : readPacket s = (.ok (.data bytes), next)) (hrest : Payload next chunks rest) :
      Payload s (bytes :: chunks) rest

theorem length_readPacket {s rest : List UInt8} {p : Packet} (h : readPacket s = (.ok p, rest)) :
    rest.length + 4 ≤ s.length := by
  cases readPacket_eq_ok.1 h with
  | flush hheader hlen => rw [List.length_append]; omega
  | delim hheader hlen => rw [List.length_append]; omega
  | responseEnd hheader hlen => rw [List.length_append]; omega
  | data hheader hlen hn hbytes => rw [List.length_append, List.length_append]; omega

/-- The length of the stream is enough rounds for a loop. -/
theorem Payload.length_lt {s rest : List UInt8} {chunks : List (List UInt8)}
    (h : Payload s chunks rest) : chunks.length < s.length := by
  induction h with
  | flush h =>
      have := length_readPacket h
      rw [List.length_nil]
      omega
  | data h hrest ih =>
      have := length_readPacket h
      rw [List.length_cons]
      omega

/-- What is written as packets is a payload. -/
theorem payload_encode {chunks : List (List UInt8)} (hfits : ∀ c ∈ chunks, c.length ≤ maxPktPayload)
    (rest : List UInt8) : Payload (encodePackets (payloadPackets chunks) ++ rest) chunks rest := by
  induction chunks with
  | nil => exact Payload.flush (readPacket_encode (p := .flush) trivial rest)
  | cons c chunks ih =>
      have hread := readPacket_encode (p := .data c) (hfits c List.mem_cons_self)
        (encodePackets (payloadPackets chunks) ++ rest)
      rw [← List.append_assoc] at hread
      exact Payload.data hread (ih (fun c' hc' => hfits c' (List.mem_cons_of_mem c hc')))

/-! ## The list readers -/

/-- The greatest `u64`. -/
def u64Max : Nat := 18446744073709551615

/-- The loop of `read_binary_to`, after `total` bytes in `out`. -/
def readBinaryIntoLoop (maxTotalBytes : Nat) :
    Nat → List UInt8 → Nat → PktReader (List UInt8 × Nat)
  | 0, _, _ => PktReader.fail .unexpectedEof
  | rounds + 1, out, total => do
    match ← readPacket with
    | .flush => return (out, total)
    | .data bytes =>
      -- the addition saturates
      if min (total + bytes.length) u64Max > maxTotalBytes then
        PktReader.fail (.invalidData
          ("pkt-line payload exceeded cap of " ++ toString maxTotalBytes ++ " bytes"))
      else readBinaryIntoLoop maxTotalBytes rounds (out ++ bytes) (total + bytes.length)
    | other =>
      PktReader.fail (.invalidData ("expected data packet or flush, got " ++ other.debug))

/-- `read_binary_to`: what is written to `out`, and the total that is returned. -/
def readBinaryInto (maxTotalBytes : Nat) : PktReader (List UInt8 × Nat) := fun s =>
  readBinaryIntoLoop maxTotalBytes (s.length + 1) [] 0 s

/-- The same loop, with the bytes alone. -/
theorem readBinaryIntoLoop_eq {cap : Nat} (hcap : cap < u64Max) (rounds total : Nat)
    (out s : List UInt8) : readBinaryIntoLoop cap rounds out total s =
      ((readBinaryLoop cap rounds total s).1.map
        (fun bytes => (out ++ bytes, total + bytes.length)), (readBinaryLoop cap rounds total s).2) := by
  induction rounds generalizing total out s with
  | zero => rfl
  | succ rounds ih =>
      rw [readBinaryIntoLoop, readBinaryLoop]
      cases hread : readPacket s with
      | mk res rest =>
          cases res with
          | error e =>
              rw [PktReader.bind_error hread, PktReader.bind_error hread]
              rfl
          | ok p =>
              rw [PktReader.bind_ok hread, PktReader.bind_ok hread]
              cases p with
              | delim => rfl
              | responseEnd => rfl
              | flush =>
                  change (Except.ok (out, total), rest) = (Except.ok (out ++ [], total), rest)
                  rw [List.append_nil]
              | data bytes =>
                  simp only
                  by_cases hbig : total + bytes.length > cap
                  · rw [if_pos hbig, if_pos (by omega)]
                    rfl
                  · rw [if_neg hbig, if_neg (by omega), ih]
                    cases hloop : readBinaryLoop cap rounds (total + bytes.length) rest with
                    | mk res left =>
                        cases res with
                        | error e =>
                            rw [PktReader.bind_error hloop]
                            rfl
                        | ok more =>
                            rw [PktReader.bind_ok hloop]
                            change (Except.ok (out ++ bytes ++ more, total + bytes.length +
                              more.length), left) = (Except.ok (out ++ (bytes ++ more), total +
                                (bytes ++ more).length), left)
                            rw [List.append_assoc, List.length_append, Nat.add_assoc]

/-- `readBinaryTo` keeps the bytes of it. -/
theorem readBinaryTo_eq {cap : Nat} (hcap : cap < u64Max) (s : List UInt8) :
    readBinaryTo cap s = ((readBinaryInto cap s).1.map Prod.fst, (readBinaryInto cap s).2) := by
  unfold readBinaryTo readBinaryInto
  rw [readBinaryIntoLoop_eq hcap]
  cases hloop : readBinaryLoop cap (s.length + 1) 0 s with
  | mk res rest => cases res <;> rfl

theorem readBinaryIntoLoop_payload {s rest : List UInt8} {chunks : List (List UInt8)}
    (h : Payload s chunks rest) {cap rounds total : Nat} (hrounds : chunks.length < rounds)
    (htotal : total + chunks.flatten.length ≤ cap) (out : List UInt8) :
    readBinaryIntoLoop cap rounds out total s =
      (.ok (out ++ chunks.flatten, total + chunks.flatten.length), rest) := by
  induction h generalizing rounds total out with
  | flush h =>
      obtain ⟨n, rfl⟩ : ∃ n, rounds = n + 1 := ⟨rounds - 1, by simp at hrounds; omega⟩
      rw [readBinaryIntoLoop, PktReader.bind_ok h, List.flatten_nil, List.append_nil]
      rfl
  | @data s next rest bytes chunks h hrest ih =>
      obtain ⟨n, rfl⟩ : ∃ n, rounds = n + 1 := ⟨rounds - 1, by simp at hrounds; omega⟩
      rw [List.flatten_cons, List.length_append, ← Nat.add_assoc] at htotal
      rw [readBinaryIntoLoop, PktReader.bind_ok h]
      simp only
      rw [if_neg (by omega), ih (by simpa using hrounds) htotal, List.flatten_cons,
        List.append_assoc, List.length_append, Nat.add_assoc]

/-- **A payload within the cap is read whole**, up to its flush. -/
theorem readBinaryInto_payload {s rest : List UInt8} {chunks : List (List UInt8)}
    (h : Payload s chunks rest) {cap : Nat} (hcap : chunks.flatten.length ≤ cap) :
    readBinaryInto cap s = (.ok (chunks.flatten, chunks.flatten.length), rest) := by
  have hloop := readBinaryIntoLoop_payload h (Nat.lt_succ_of_lt h.length_lt)
    ((Nat.zero_add _).trans_le hcap) []
  rw [List.nil_append, Nat.zero_add] at hloop
  exact hloop

theorem readTextLoop_payload {s rest : List UInt8} {chunks : List (List UInt8)}
    (h : Payload s chunks rest) {rounds : Nat} (hrounds : chunks.length < rounds)
    {lines : List String} (hlines : decodeLines chunks = some lines) :
    readTextLoop rounds s = (.ok lines, rest) := by
  induction h generalizing rounds lines with
  | flush h =>
      obtain ⟨n, rfl⟩ : ∃ n, rounds = n + 1 := ⟨rounds - 1, by simp at hrounds; omega⟩
      rw [readTextLoop, PktReader.bind_ok h, ← Option.some.inj hlines]
      rfl
  | @data s next rest bytes chunks h hrest ih =>
      obtain ⟨n, rfl⟩ : ∃ n, rounds = n + 1 := ⟨rounds - 1, by simp at hrounds; omega⟩
      unfold decodeLines at hlines
      rw [List.mapM_cons] at hlines
      obtain ⟨line, hline, hrestLines⟩ := Option.bind_eq_some_iff.1 hlines
      obtain ⟨lines', hlines', heq⟩ := Option.bind_eq_some_iff.1 hrestLines
      rw [← Option.some.inj heq, readTextLoop, PktReader.bind_ok h]
      simp only [hline]
      rw [PktReader.bind_ok (ih (by simpa using hrounds) hlines')]
      rfl

/-! ## The round trips -/

/-- The packets of a blob are its bytes in order. -/
theorem binaryPackets_eq {rounds : Nat} {bytes : List UInt8} (hlen : bytes.length ≤ rounds) :
    ∃ chunks : List (List UInt8), (∀ c ∈ chunks, c.length ≤ maxPktPayload) ∧
      chunks.flatten = bytes ∧ binaryPackets rounds bytes = chunks.map Packet.data := by
  induction rounds generalizing bytes with
  | zero =>
      obtain rfl := List.eq_nil_of_length_eq_zero (Nat.le_zero.1 hlen)
      exact ⟨[], by simp, rfl, rfl⟩
  | succ rounds ih =>
      rw [binaryPackets]
      by_cases hnil : bytes.isEmpty = true
      · rw [if_pos hnil]
        exact ⟨[], by simp, (List.isEmpty_iff.1 hnil).symm, rfl⟩
      · rw [if_neg hnil]
        have hpos : 0 < bytes.length :=
          List.length_pos_iff.2 (fun h => hnil (List.isEmpty_iff.2 h))
        have hdrop : (bytes.drop maxPktPayload).length ≤ rounds := by
          rw [List.length_drop]
          unfold maxPktPayload
          omega
        obtain ⟨chunks, hfits, hflat, hpackets⟩ := ih hdrop
        refine ⟨bytes.take maxPktPayload :: chunks, ?_, ?_, by rw [hpackets]; rfl⟩
        · rw [List.forall_mem_cons]
          exact ⟨List.length_take_le _ _, hfits⟩
        · rw [List.flatten_cons, hflat, List.take_append_drop]

theorem stripNewline_concat (bytes : List UInt8) : stripNewline (bytes ++ [10]) = bytes := by
  unfold stripNewline
  rw [List.getLast?_concat, if_pos rfl, List.dropLast_concat]

theorem decodeLines_linePackets (lines : List String) :
    decodeLines (lines.map (fun line => asBytes line ++ [10])) = some lines := by
  unfold decodeLines
  rw [List.mapM_map]
  induction lines with
  | nil => rfl
  | cons line lines ih =>
      rw [List.mapM_cons, ih]
      simp [stripNewline_concat, fromUtf8_asBytes]

theorem writeTextList_of_fits {lines : List String} (hfits : ∀ line ∈ lines, LineFits line)
    (w : Wire) : Session.writeTextList lines w =
      (.ok (), w.wrote (payloadPackets (lines.map (fun line => asBytes line ++ [10])))) := by
  induction lines generalizing w with
  | nil => rfl
  | cons line lines ih =>
      unfold Session.writeTextList
      rw [Session.bind_ok (Session.writeText_of_fits (hfits line List.mem_cons_self) w),
        ih (fun l hl => hfits l (List.mem_cons_of_mem line hl)), Wire.wrote_wrote]
      rfl

/-- **What the writers write, the readers read**, and they stop right after it: a blob, within the
    cap of the reader, and a list of lines that fit a packet each. -/
theorem writers_read_back :
    (∀ (d : List UInt8) (cap : Nat) (w : Wire), d.length ≤ cap →
      ∃ out, Session.writeAllThenFlush d w = (.ok (), { w with output := w.output ++ out }) ∧
        ∀ further, readBinaryInto cap (out ++ further) = (.ok (d, d.length), further)) ∧
    ∀ (lines : List String) (w : Wire), (∀ line ∈ lines, (asBytes line).length ≤ 65515) →
      ∃ out, Session.writeTextList lines w = (.ok (), { w with output := w.output ++ out }) ∧
        ∀ further, readTextList (out ++ further) = (.ok lines, further) := by
  constructor
  · intro d cap w hcap
    obtain ⟨chunks, hfits, hflat, hpackets⟩ := binaryPackets_eq (Nat.le_refl d.length)
    subst hflat
    refine ⟨encodePackets (payloadPackets chunks), ?_, fun further => ?_⟩
    · rw [Session.writeAllThenFlush_eq]
      unfold writeBinary
      rw [hpackets]
      rfl
    · exact readBinaryInto_payload (payload_encode hfits further) hcap
  · intro lines w hlines
    have hfits : ∀ line ∈ lines, LineFits line := fun line hl => Nat.succ_le_succ (hlines line hl)
    refine ⟨_, writeTextList_of_fits hfits w, fun further => ?_⟩
    have hpackets : ∀ c ∈ lines.map (fun line => asBytes line ++ [10]), c.length ≤ maxPktPayload := by
      intro c hc
      obtain ⟨line, hl, rfl⟩ := List.mem_map.1 hc
      rw [List.length_append]
      exact hfits line hl
    have hpayload := payload_encode hpackets further
    exact readTextLoop_payload hpayload (Nat.lt_succ_of_lt hpayload.length_lt)
      (decodeLines_linePackets lines)

end BaleForGit
