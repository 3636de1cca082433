import BaleForGit.Pointer

set_option autoImplicit false

/-! # pkt-line framing (`pktline.rs`)

A packet is four hex digits with the length of the whole packet, and a payload; the lengths 0, 1 and
2 are control packets. A reader that fails has taken some of the stream, and what it left is what
the next reader starts at, so `PktReader` keeps the rest of the stream in both cases.

`readPacket_encode` is the round trip of a packet; from it come what the list readers do on an
encoded list, where they stop when they fail, and that no two lists of packets are the same
bytes (`encodePackets_inj`). -/

namespace BaleForGit

/-- `MAX_PKT_PAYLOAD`. -/
def maxPktPayload : Nat := 65516

inductive Packet where
  | flush
  | delim
  | responseEnd
  | data (bytes : List UInt8)
deriving DecidableEq, Repr

inductive ReadError where
  | unexpectedEof
  | invalidData (text : String)
deriving DecidableEq, Repr

/-! ## Reading -/

/-- A read: its result, and the rest of the stream. -/
def PktReader (α : Type) : Type := List UInt8 → Except ReadError α × List UInt8

instance : Monad PktReader where
  pure a := fun s => (.ok a, s)
  bind x f := fun s =>
    match x s with
    | (.error e, rest) => (.error e, rest)
    | (.ok a, rest) => f a rest

namespace PktReader

def fail {α : Type} (e : ReadError) : PktReader α := fun s => (.error e, s)

def readExact (n : Nat) : PktReader (List UInt8) := fun s =>
  if n ≤ s.length then (.ok (s.take n), s.drop n) else (.error .unexpectedEof, [])

theorem bind_ok {α β : Type} {x : PktReader α} {f : α → PktReader β} {s rest : List UInt8} {a : α}
    (h : x s = (.ok a, rest)) : (x >>= f) s = f a rest := by
  simp only [bind, h]

theorem bind_error {α β : Type} {x : PktReader α} {f : α → PktReader β} {s rest : List UInt8}
    {e : ReadError} (h : x s = (.error e, rest)) : (x >>= f) s = (.error e, rest) := by
  simp only [bind, h]

theorem readExact_append {as rest : List UInt8} {n : Nat} (hn : as.length = n) :
    readExact n (as ++ rest) = (.ok as, rest) := by
  unfold readExact
  rw [if_pos (by rw [List.length_append]; omega), List.take_left' hn, List.drop_left' hn]

end PktReader

def hexValue (b : UInt8) : Option Nat :=
  if 48 ≤ b ∧ b ≤ 57 then some (b.toNat - 48)
  else if 97 ≤ b ∧ b ≤ 102 then some (b.toNat - 87)
  else if 65 ≤ b ∧ b ≤ 70 then some (b.toNat - 55)
  else none

/-- `u16::from_str_radix(s, 16)`, of four bytes: digits, after a plus sign perhaps. -/
def headerLength (s : List UInt8) : Option Nat :=
  let digits := match s with
    | 43 :: rest => rest
    | _ => s
  if digits.isEmpty then none
  else digits.foldlM (fun acc b => (hexValue b).map (fun d => acc * 16 + d)) 0

/-- What `{other:?}` prints of a control packet. -/
def Packet.debug : Packet → String
  | .flush => "Flush"
  | .delim => "Delim"
  | .responseEnd => "ResponseEnd"
  | .data _ => "Data"

def readPacket : PktReader Packet := do
  let header ← PktReader.readExact 4
  match headerLength header with
  | none =>
    -- what parses is ASCII, so the UTF-8 check only decides between the two errors
    match fromUtf8 header with
    | none => PktReader.fail (.invalidData "non-utf8 pkt-line header")
    | some text => PktReader.fail (.invalidData ("bad pkt-line header '" ++ text ++ "'"))
  | some len =>
    if len = 0 then return .flush
    else if len = 1 then return .delim
    else if len = 2 then return .responseEnd
    else if len < 4 then
      PktReader.fail (.invalidData ("undersized pkt-line length " ++ toString len))
    else do
      let bytes ← PktReader.readExact (len - 4)
      return .data bytes

/-- A trailing newline is stripped. -/
def stripNewline (bytes : List UInt8) : List UInt8 :=
  if bytes.getLast? = some 10 then bytes.dropLast else bytes

/-- The loop of `read_text_list`. Every packet has a header, so the length of the stream bounds the
    rounds. -/
def readTextLoop : Nat → PktReader (List String)
  | 0 => PktReader.fail .unexpectedEof
  | rounds + 1 => do
    match ← readPacket with
    | .flush => return []
    | .data bytes =>
      match fromUtf8 (stripNewline bytes) with
      | none => PktReader.fail (.invalidData "invalid utf-8")
      | some line => do
        let rest ← readTextLoop rounds
        return line :: rest
    | other =>
      PktReader.fail (.invalidData ("expected text packet or flush, got " ++ other.debug))

def readTextList : PktReader (List String) := fun s => readTextLoop (s.length + 1) s

/-- The loop of `read_binary_to`, after `total` bytes. -/
def readBinaryLoop (maxTotalBytes : Nat) : Nat → Nat → PktReader (List UInt8)
  | 0, _ => PktReader.fail .unexpectedEof
  | rounds + 1, total => do
    match ← readPacket with
    | .flush => return []
    | .data bytes =>
      if total + bytes.length > maxTotalBytes then
        PktReader.fail (.invalidData
          ("pkt-line payload exceeded cap of " ++ toString maxTotalBytes ++ " bytes"))
      else do
        let rest ← readBinaryLoop maxTotalBytes rounds (total + bytes.length)
        return bytes ++ rest
    | other =>
      PktReader.fail (.invalidData ("expected data packet or flush, got " ++ other.debug))

/-- `read_binary_to`, into a sink or a vector. -/
def readBinaryTo (maxTotalBytes : Nat) : PktReader (List UInt8) := fun s =>
  readBinaryLoop maxTotalBytes (s.length + 1) 0 s

/-! ## Writing -/

def hexByte (d : Nat) : UInt8 := UInt8.ofNat (if d < 10 then 48 + d else 87 + d)

/-- `{total:04x}`, of what fits four digits. -/
def hex4 (n : Nat) : List UInt8 :=
  [hexByte (n / 4096), hexByte (n / 256 % 16), hexByte (n / 16 % 16), hexByte (n % 16)]

def encodePacket : Packet → List UInt8
  | .flush => hex4 0
  | .delim => hex4 1
  | .responseEnd => hex4 2
  | .data bytes => hex4 (bytes.length + 4) ++ bytes

def encodePackets (ps : List Packet) : List UInt8 := ps.flatMap encodePacket

/-- The packet of `write_text`, or its error. -/
def textPacket (line : String) : Except String Packet :=
  if (asBytes line).length + 1 > maxPktPayload then .error "pkt-line text exceeds 65516 bytes"
  else .ok (.data (asBytes line ++ [10]))

/-- The packets of `write_binary`; every round takes a byte at least. -/
def binaryPackets : Nat → List UInt8 → List Packet
  | 0, _ => []
  | rounds + 1, bytes =>
    if bytes.isEmpty then []
    else .data (bytes.take maxPktPayload) :: binaryPackets rounds (bytes.drop maxPktPayload)

def writeBinary (bytes : List UInt8) : List Packet := binaryPackets bytes.length bytes

/-! ## The round trip -/

/-- What fits into a packet. -/
def Packet.Fits : Packet → Prop
  | .data bytes => bytes.length ≤ maxPktPayload
  | _ => True

instance (p : Packet) : Decidable p.Fits :=
  match p with
  | .data bytes => inferInstanceAs (Decidable (bytes.length ≤ maxPktPayload))
  | .flush => inferInstanceAs (Decidable True)
  | .delim => inferInstanceAs (Decidable True)
  | .responseEnd => inferInstanceAs (Decidable True)

theorem hexValue_hexByte {d : Nat} (hd : d < 16) : hexValue (hexByte d) = some d := by
  have hall : ∀ d : Fin 16, hexValue (hexByte d) = some d.val := by decide
  exact hall ⟨d, hd⟩

theorem hexByte_ne_plus {d : Nat} (hd : d < 16) : hexByte d ≠ 43 := by
  have hall : ∀ d : Fin 16, hexByte d ≠ 43 := by decide
  exact hall ⟨d, hd⟩

theorem headerLength_hex4 {n : Nat} (hn : n < 65536) : headerLength (hex4 n) = some n := by
  have hplus := hexByte_ne_plus (d := n / 4096) (by omega)
  have hdigits : (match hex4 n with
      | 43 :: rest => rest
      | _ => hex4 n) = hex4 n := by
    unfold hex4
    split
    · rename_i heq
      exact absurd (List.cons.inj heq).1 hplus
    · rfl
  unfold headerLength
  simp only [hdigits]
  unfold hex4
  simp only [List.isEmpty_cons, Bool.false_eq_true, if_false, List.foldlM_cons, List.foldlM_nil,
    hexValue_hexByte (d := n / 4096) (by omega), hexValue_hexByte (d := n / 256 % 16) (by omega),
    hexValue_hexByte (d := n / 16 % 16) (by omega), hexValue_hexByte (d := n % 16) (by omega),
    Option.map_some, bind, Option.bind, pure, Option.some.injEq]
  omega

/-- **A packet is read back**, and nothing after it is touched. -/
theorem readPacket_encode {p : Packet} (hp : p.Fits) (rest : List UInt8) :
    readPacket (encodePacket p ++ rest) = (.ok p, rest) := by
  have hheader : ∀ n (tail : List UInt8), PktReader.readExact 4 (hex4 n ++ tail) =
      (.ok (hex4 n), tail) := fun n tail => PktReader.readExact_append rfl
  unfold readPacket
  cases p with
  | flush =>
      rw [encodePacket, PktReader.bind_ok (hheader 0 rest), headerLength_hex4 (by decide)]
      rfl
  | delim =>
      rw [encodePacket, PktReader.bind_ok (hheader 1 rest), headerLength_hex4 (by decide)]
      rfl
  | responseEnd =>
      rw [encodePacket, PktReader.bind_ok (hheader 2 rest), headerLength_hex4 (by decide)]
      rfl
  | data bytes =>
      have hlen : bytes.length ≤ maxPktPayload := hp
      unfold maxPktPayload at hlen
      rw [encodePacket, List.append_assoc, PktReader.bind_ok (hheader _ (bytes ++ rest)),
        headerLength_hex4 (by omega)]
      simp only
      rw [if_neg (by omega), if_neg (by omega), if_neg (by omega), if_neg (by omega),
        Nat.add_sub_cancel, PktReader.bind_ok (PktReader.readExact_append rfl)]
      rfl

theorem encodePackets_append (ps qs : List Packet) :
    encodePackets (ps ++ qs) = encodePackets ps ++ encodePackets qs := by
  simp [encodePackets]

theorem encodePackets_cons (p : Packet) (ps : List Packet) :
    encodePackets (p :: ps) = encodePacket p ++ encodePackets ps := rfl

theorem encodePacket_length_ge (p : Packet) : 4 ≤ (encodePacket p).length := by
  cases p <;> simp [encodePacket, hex4]

theorem encodePackets_length_ge (ps : List Packet) : ps.length ≤ (encodePackets ps).length := by
  induction ps with
  | nil => simp
  | cons p ps ih =>
      have hp := encodePacket_length_ge p
      rw [encodePackets_cons, List.length_append, List.length_cons]
      omega

/-- **Packets are the only packets of their bytes.** -/
theorem encodePackets_inj {ps qs : List Packet} (hps : ∀ p ∈ ps, p.Fits) (hqs : ∀ q ∈ qs, q.Fits)
    (h : encodePackets ps = encodePackets qs) : ps = qs := by
  induction ps generalizing qs with
  | nil =>
      have hle := encodePackets_length_ge qs
      rw [← h] at hle
      exact (List.eq_nil_of_length_eq_zero (Nat.le_zero.1 hle)).symm
  | cons p ps ih =>
      cases qs with
      | nil =>
          have hle := encodePackets_length_ge (p :: ps)
          rw [h] at hle
          simp [encodePackets] at hle
      | cons q qs =>
          have hp := readPacket_encode (hps p List.mem_cons_self) (encodePackets ps)
          have hq := readPacket_encode (hqs q List.mem_cons_self) (encodePackets qs)
          rw [encodePackets_cons, encodePackets_cons] at h
          rw [h, hq, Prod.mk.injEq, Except.ok.injEq] at hp
          rw [hp.1, ih (fun p' hp' => hps p' (List.mem_cons_of_mem p hp'))
            (fun q' hq' => hqs q' (List.mem_cons_of_mem q hq')) hp.2.symm]

/-! ## Lists of packets -/

/-- The lines of a text list. -/
def decodeLines (lines : List (List UInt8)) : Option (List String) :=
  lines.mapM (fun bytes => fromUtf8 (stripNewline bytes))

/-- A payload: data packets, and a flush. -/
def payloadPackets (chunks : List (List UInt8)) : List Packet := chunks.map Packet.data ++ [.flush]

theorem readTextLoop_encode {lines : List (List UInt8)} (hfits : ∀ l ∈ lines, l.length ≤ maxPktPayload)
    {rounds : Nat} (hrounds : lines.length < rounds) (rest : List UInt8) :
    match decodeLines lines with
    | some texts => readTextLoop rounds (encodePackets (payloadPackets lines) ++ rest) =
        (.ok texts, rest)
    | none => ∃ text left,
        readTextLoop rounds (encodePackets (payloadPackets lines) ++ rest) =
          (.error (.invalidData text), left) := by
  induction lines generalizing rounds with
  | nil =>
      obtain ⟨n, rfl⟩ : ∃ n, rounds = n + 1 := ⟨rounds - 1, by simp at hrounds; omega⟩
      change readTextLoop (n + 1) (encodePacket .flush ++ rest) = (.ok [], rest)
      rw [readTextLoop, PktReader.bind_ok (readPacket_encode (p := .flush) trivial rest)]
      rfl
  | cons l lines ih =>
      obtain ⟨n, rfl⟩ : ∃ n, rounds = n + 1 := ⟨rounds - 1, by simp at hrounds; omega⟩
      have hone := readPacket_encode (p := .data l) (hfits l List.mem_cons_self)
        (encodePackets (payloadPackets lines) ++ rest)
      have hlt : lines.length < n := by simpa using hrounds
      have hrest := ih (fun l' hl' => hfits l' (List.mem_cons_of_mem l hl')) hlt
      have hread : readTextLoop (n + 1) (encodePackets (payloadPackets (l :: lines)) ++ rest) =
          (match fromUtf8 (stripNewline l) with
            | none => PktReader.fail (.invalidData "invalid utf-8")
            | some line => do
              let rest ← readTextLoop n
              return line :: rest) (encodePackets (payloadPackets lines) ++ rest) := by
        rw [show payloadPackets (l :: lines) = .data l :: payloadPackets lines from rfl,
          encodePackets_cons, List.append_assoc, readTextLoop, PktReader.bind_ok hone]
      rw [hread]
      unfold decodeLines at hrest ⊢
      rw [List.mapM_cons]
      cases hline : fromUtf8 (stripNewline l) with
      | none => exact ⟨_, _, rfl⟩
      | some line =>
          cases hlines : lines.mapM (fun bytes => fromUtf8 (stripNewline bytes)) with
          | some texts =>
              rw [hlines] at hrest
              simp only at hrest
              exact PktReader.bind_ok hrest
          | none =>
              rw [hlines] at hrest
              obtain ⟨text, left, hleft⟩ := hrest
              exact ⟨text, left, PktReader.bind_error hleft⟩

/-- What a read with a cap leaves of a payload: the packets after the first that exceeds it. -/
def unreadAfter (maxTotalBytes : Nat) : Nat → List (List UInt8) → List (List UInt8)
  | _, [] => []
  | total, c :: chunks =>
    if total + c.length > maxTotalBytes then chunks
    else unreadAfter maxTotalBytes (total + c.length) chunks

theorem readBinaryLoop_encode {chunks : List (List UInt8)}
    (hfits : ∀ c ∈ chunks, c.length ≤ maxPktPayload) {rounds : Nat} (hrounds : chunks.length < rounds)
    {cap total : Nat} (htotal : total ≤ cap) (rest : List UInt8) :
    readBinaryLoop cap rounds total (encodePackets (payloadPackets chunks) ++ rest) =
      if total + chunks.flatten.length ≤ cap then (.ok chunks.flatten, rest)
      else (.error (.invalidData ("pkt-line payload exceeded cap of " ++ toString cap ++ " bytes")),
        encodePackets (payloadPackets (unreadAfter cap total chunks)) ++ rest) := by
  induction chunks generalizing rounds total with
  | nil =>
      obtain ⟨n, rfl⟩ : ∃ n, rounds = n + 1 := ⟨rounds - 1, by simp at hrounds; omega⟩
      rw [if_pos (by simpa using htotal)]
      change readBinaryLoop cap (n + 1) total (encodePacket .flush ++ rest) = (.ok [], rest)
      rw [readBinaryLoop, PktReader.bind_ok (readPacket_encode (p := .flush) trivial rest)]
      rfl
  | cons c chunks ih =>
      obtain ⟨n, rfl⟩ : ∃ n, rounds = n + 1 := ⟨rounds - 1, by simp at hrounds; omega⟩
      have hone := readPacket_encode (p := .data c) (hfits c List.mem_cons_self)
        (encodePackets (payloadPackets chunks) ++ rest)
      rw [show payloadPackets (c :: chunks) = .data c :: payloadPackets chunks from rfl,
        encodePackets_cons, List.append_assoc, readBinaryLoop, PktReader.bind_ok hone,
        List.flatten_cons, List.length_append]
      by_cases hbig : total + c.length > cap
      · simp only
        rw [if_pos hbig, if_neg (by omega), unreadAfter, if_pos hbig]
        rfl
      · have hlt : chunks.length < n := by simpa using hrounds
        have hle : total + c.length ≤ cap := Nat.le_of_not_lt hbig
        have hrest := ih (fun c' hc' => hfits c' (List.mem_cons_of_mem c hc')) hlt hle
        simp only
        rw [if_neg hbig, unreadAfter, if_neg hbig, ← Nat.add_assoc]
        split_ifs at hrest ⊢ with hle
        · rw [PktReader.bind_ok hrest]
          rfl
        · exact PktReader.bind_error hrest

end BaleForGit
