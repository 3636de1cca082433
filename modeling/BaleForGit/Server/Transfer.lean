import Mathlib.Data.LawfulXor.Basic
import BaleForGit.Library.Texts
import BaleForGit.Library.Traced
import BaleForGit.Server.Headers
import BaleForGit.Server.Integrity
import BaleForGit.Server.Requests
import BaleForGit.Server.Servable
import BaleForGit.Server.Slices
import BaleForGit.Server.Wire

set_option autoImplicit false

/-! # Signed transfer URLs (`build_signed_url`, `get_xorb_transfer`)

A reconstruction hands out URLs that are signed over a xorb, a byte range and an expiry. The transfer
handler needs no token: it checks the signature, the expiry and that the `Range` header asks for the
signed range, and reads that range from the store.

The MAC under the server's secret is the parameter `mac`. `Unforgeable` is what is taken for granted
of it: whoever presents the MAC of a message has it from the server. -/

namespace BaleForGit.Server

/-! ## Range headers -/

/-- What `u64::from_str` reads the digits from: one `+` may stand before them. -/
def withoutPlus : List Char → List Char
  | '+' :: rest => rest
  | text => text

/-- `str::parse::<u64>`. -/
def parseU64 (text : List Char) : Option UInt64 :=
  let digits := withoutPlus text
  if digits ≠ [] ∧ digits.all Char.isDigit = true ∧
      Nat.ofDigitChars 10 digits 0 < 18446744073709551616 then
    some (UInt64.ofNat (Nat.ofDigitChars 10 digits 0))
  else none

/-- `str::split_once`. -/
def splitOnce (c : Char) (text : List Char) : Option (List Char × List Char) :=
  if c ∈ text then
    some (text.takeWhile (fun x => x ≠ c), (text.dropWhile (fun x => x ≠ c)).drop 1)
  else none

def parseByteRangeHeader (v : List UInt8) : Except String (UInt64 × UInt64) :=
  match headerText v with
  | none => .error "invalid Range header"
  | some s =>
    match stripPrefix "bytes=".toList s with
    | none => .error "expected 'bytes=' prefix"
    | some rest =>
      match splitOnce '-' rest with
      | none => .error "expected 'bytes=X-Y'"
      | some (a, b) =>
        match parseU64 (trim a) with
        | none => .error "bad start"
        | some start =>
          match parseU64 (trim b) with
          | none => .error "bad end"
          | some stop => if stop < start then .error "inverted range" else .ok (start, stop)

/-- A number between blanks. -/
def Numeral (text : List Char) (n : UInt64) : Prop :=
  ∃ before plus digits after, text = before ++ plus ++ digits ++ after ∧
    (∀ c ∈ before, isBlank c = true) ∧ (∀ c ∈ after, isBlank c = true) ∧
    (plus = [] ∨ plus = ['+']) ∧ digits ≠ [] ∧ (∀ c ∈ digits, c.isDigit = true) ∧
    Nat.ofDigitChars 10 digits 0 = n.toNat

/-- The header says `bytes=start-stop`. -/
def Denotes (v : List UInt8) (start stop : UInt64) : Prop :=
  ∃ a b, headerText v = some ("bytes=".toList ++ a ++ '-' :: b) ∧ Numeral a start ∧ Numeral b stop

theorem stripPrefix_eq_some {start text rest : List Char} :
    stripPrefix start text = some rest ↔ text = start ++ rest := by
  unfold stripPrefix
  constructor
  · intro h
    split_ifs at h with hstart
    obtain ⟨tail, rfl⟩ := hstart
    rw [List.drop_left] at h
    rw [Option.some.inj h]
  · rintro rfl
    rw [if_pos (List.prefix_append _ _), List.drop_left]

theorem splitOnce_eq_some {c : Char} {text a b : List Char} :
    splitOnce c text = some (a, b) ↔ text = a ++ c :: b ∧ c ∉ a := by
  unfold splitOnce
  split_ifs with hmem
  · rw [Option.some.injEq]
    exact Texts.cut_at hmem
  · refine iff_of_false (by simp) ?_
    rintro ⟨rfl, -⟩
    simp at hmem

theorem not_isBlank_digit {c : Char} (h : c.isDigit = true) : isBlank c = false := by
  unfold isBlank
  have hlow : 48 ≤ c.toNat := (Char.isDigit_iff_toNat.1 h).1
  have hne : c ≠ ' ' := by
    rintro rfl
    cases h
  simp [hne]
  omega

/-- Blanks around a text without blanks are trimmed. -/
theorem trim_between {before core after : List Char} (hblank : ∀ c ∈ before ++ after, isBlank c = true)
    (hcore : ∀ c ∈ core, isBlank c = false) : trim (before ++ core ++ after) = core := by
  change Texts.trimBy isBlank (before ++ core ++ after) = core
  rw [Texts.trimBy_pad hblank, Texts.trimBy_eq_self hcore]

theorem trim_split (text : List Char) : ∃ before after, text = before ++ trim text ++ after ∧
    ∀ c ∈ before ++ after, isBlank c = true :=
  Texts.exists_trimBy isBlank text

theorem withoutPlus_split (text : List Char) :
    ∃ plus, text = plus ++ withoutPlus text ∧ (plus = [] ∨ plus = ['+']) := by
  unfold withoutPlus
  split
  · exact ⟨['+'], rfl, Or.inr rfl⟩
  · exact ⟨[], rfl, Or.inl rfl⟩

/-- **What is parsed is a number between blanks.** -/
theorem parseU64_trim_iff {text : List Char} {n : UInt64} :
    parseU64 (trim text) = some n ↔ Numeral text n := by
  constructor
  · intro h
    unfold parseU64 at h
    simp only at h
    split_ifs at h with hdigits
    obtain ⟨hne, hall, hlt⟩ := hdigits
    obtain ⟨before, after, htext, hblank⟩ := trim_split text
    obtain ⟨plus, hplus, hor⟩ := withoutPlus_split (trim text)
    refine ⟨before, plus, withoutPlus (trim text), after, ?_,
      fun c hc => hblank c (List.mem_append_left after hc),
      fun c hc => hblank c (List.mem_append_right before hc), hor, hne,
      List.all_eq_true.1 hall, ?_⟩
    · rw [List.append_assoc before plus, ← hplus]
      exact htext
    · rw [← Option.some.inj h, UInt64.toNat_ofNat', Nat.mod_eq_of_lt hlt]
  · rintro ⟨before, plus, digits, after, rfl, hbefore, hafter, hor, hne, hall, hvalue⟩
    have hcore : trim (before ++ plus ++ digits ++ after) = plus ++ digits := by
      rw [List.append_assoc before plus]
      refine trim_between (List.forall_mem_append.2 ⟨hbefore, hafter⟩) (fun c hc => ?_)
      rcases List.mem_append.1 hc with hc | hc
      · rcases hor with rfl | rfl
        · cases hc
        · rw [List.mem_singleton.1 hc]
          rfl
      · exact not_isBlank_digit (hall c hc)
    have hdigits : withoutPlus (plus ++ digits) = digits := by
      rcases hor with rfl | rfl
      · cases digits with
        | nil => exact absurd rfl hne
        | cons d rest =>
            have hd := hall d (List.mem_cons_self ..)
            unfold withoutPlus
            split
            · rename_i heq
              rw [List.nil_append] at heq
              rw [(List.cons.inj heq).1] at hd
              cases hd
            · rfl
      · rfl
    have hlt := n.toNat_lt
    unfold parseU64
    simp only [hcore, hdigits, hvalue]
    rw [if_pos ⟨hne, List.all_eq_true.2 hall, by omega⟩, UInt64.ofNat_toNat]

theorem Numeral.no_dash {text : List Char} {n : UInt64} (h : Numeral text n) : '-' ∉ text := by
  obtain ⟨before, plus, digits, after, rfl, hbefore, hafter, hor, -, hall, -⟩ := h
  simp only [List.mem_append, not_or]
  refine ⟨⟨⟨fun h => ?_, fun h => ?_⟩, fun h => ?_⟩, fun h => ?_⟩
  · cases hbefore _ h
  · rcases hor with rfl | rfl
    · cases h
    · simp at h
  · cases hall _ h
  · cases hafter _ h

/-- **The header is accepted exactly if it denotes the range**, from its start to its end. -/
theorem parseByteRangeHeader_iff {v : List UInt8} {start stop : UInt64} :
    parseByteRangeHeader v = .ok (start, stop) ↔ Denotes v start stop ∧ start ≤ stop := by
  constructor
  · intro h
    unfold parseByteRangeHeader at h
    split at h
    · cases h
    · rename_i text htext
      split at h
      · cases h
      · rename_i rest hrest
        split at h
        · cases h
        · rename_i a b hab
          split at h
          · cases h
          · rename_i n hn
            split at h
            · cases h
            · rename_i m hm
              split_ifs at h with hlt
              obtain ⟨rfl, rfl⟩ := Prod.mk.inj (Except.ok.inj h)
              rw [stripPrefix_eq_some] at hrest
              obtain ⟨rfl, -⟩ := splitOnce_eq_some.1 hab
              refine ⟨⟨a, b, ?_, parseU64_trim_iff.1 hn, parseU64_trim_iff.1 hm⟩,
                UInt64.not_lt.1 hlt⟩
              rw [htext, hrest, List.append_assoc]
  · rintro ⟨⟨a, b, htext, ha, hb⟩, hle⟩
    have hrest : stripPrefix "bytes=".toList ("bytes=".toList ++ a ++ '-' :: b) =
        some (a ++ '-' :: b) := stripPrefix_eq_some.2 (List.append_assoc _ _ _)
    have hab : splitOnce '-' (a ++ '-' :: b) = some (a, b) :=
      splitOnce_eq_some.2 ⟨rfl, ha.no_dash⟩
    unfold parseByteRangeHeader
    simp only [htext, hrest, hab, parseU64_trim_iff.2 ha, parseU64_trim_iff.2 hb]
    rw [if_neg (UInt64.not_lt.2 hle)]

/-! ## Signatures -/

/-- The bytes of an ASCII text. -/
def ascii (text : List Char) : List UInt8 := text.map (fun c => UInt8.ofNat c.toNat)

/-- `u64::to_string`. -/
def decimal (n : UInt64) : List UInt8 := ascii (Nat.toDigits 10 n.toNat)

structure SignedRange where
  hashHex : List UInt8
  start : UInt64
  endInclusive : UInt64
  exp : UInt64
deriving DecidableEq

/-- What is fed to the MAC; 124 is `|`. -/
def SignedRange.message (r : SignedRange) : List UInt8 :=
  r.hashHex ++ 124 :: decimal r.start ++ 124 :: decimal r.endInclusive ++ 124 :: decimal r.exp

/-- `SIGNATURE_TTL_SECS`. -/
def signatureTtlSecs : UInt64 := 600

section Handlers

variable (mac : List UInt8 → Hash32)

def sign (r : SignedRange) : List UInt8 := Hex.encode (mac r.message).bytes

/-- `build_signed_url`; each call is kept. -/
def buildSignedUrl (base : List UInt8) (now : UInt64) (xorbHex : List UInt8)
    (start endInclusive : UInt64) : Traced SignedRange ApiError (List UInt8) :=
  let r : SignedRange := ⟨xorbHex, start, endInclusive, now + signatureTtlSecs⟩
  ⟨[r], .ok (base ++ ascii "/xorb/default/".toList ++ xorbHex ++ ascii "?s=".toList ++
    decimal start ++ ascii "&e=".toList ++ decimal endInclusive ++ ascii "&x=".toList ++
    decimal r.exp ++ ascii "&sig=".toList ++ sign mac r)⟩

/-- One term of the response, where to fetch it, and its URL. -/
def signedTerm (base : List UInt8) (now : UInt64)
    (layouts : XorbHash → Option (List XorbFrameRow)) (t : FileTerm) :
    Traced SignedRange ApiError ((ReconstructionTerm × XorbHash × FetchInfo) × List UInt8) :=
  match layouts t.xorb with
  | none => .lift (.error layoutMissing)
  | some layout =>
    if h : InFrames layout t then do
      let startFrame := layout.get ⟨t.chunkIdxStart.toNat, h.start_lt⟩
      let lastFrame := layout.get ⟨t.chunkIdxEnd.toNat - 1, h.last_lt⟩
      let byteStart := startFrame.onDiskStart.toUInt64
      let byteEndInclusive := lastFrame.onDiskStart.toUInt64 + lastFrame.onDiskLen.toUInt64 - 1
      let url ← buildSignedUrl mac base now (encodeHash t.xorb) byteStart byteEndInclusive
      return ((wireTerm t, t.xorb,
        ⟨termRange t, ⟨byteStart.toNat, byteEndInclusive.toNat⟩⟩), url)
    else .lift (.error badTermRange)

/-- `get_reconstruction`, with the URLs; the store does not presign. -/
def signedReconstruction (base : List UInt8) (now : UInt64) (db : Db)
    (pick : List FileRow → Option FileRow) (repoId : String) (h : FileHash) :
    Traced SignedRange ApiError (ReconstructionResponse × List (List UInt8)) := do
  if db.fileInRepo h repoId then
    match ← Traced.lift ((db.lookupFile pick h).mapError ApiError.ofCore) with
    | none => Traced.lift (.error fileNotFound)
    | some terms =>
      let layouts := db.xorbFrameLayouts (terms.map (fun t => t.xorb))
      let found ← terms.mapM (signedTerm mac base now layouts)
      return (⟨0, found.map (fun f => f.1.1), found.map (fun f => f.1.2)⟩, found.map Prod.snd)
  else Traced.lift (.error fileNotFound)

/-- A `GET` of a transfer URL: the path, the query and the `Range` header. -/
structure TransferRequest where
  hashHex : List UInt8
  s : UInt64
  e : UInt64
  x : UInt64
  sig : List UInt8
  range : Option (List UInt8)

structure TransferResponse where
  status : Nat
  body : List UInt8
  contentLength : Nat
  contentRange : List UInt8
deriving DecidableEq

/-- What the request says is signed. -/
def TransferRequest.claimed (q : TransferRequest) : SignedRange := ⟨q.hashHex, q.s, q.e, q.x⟩

def unauthorized (message : String) : ApiError := ⟨401, message⟩

/-- `get_xorb_transfer`. -/
def getXorbTransfer (st : ServerState) (now : UInt64) (q : TransferRequest) :
    Except ApiError TransferResponse :=
  match decodeHash q.hashHex with
  | .error e => .error (badReq ("malformed xorb hash: " ++ e.display))
  | .ok xorb =>
    if ¬ ctEq (sign mac q.claimed) q.sig = true then .error (unauthorized "bad signature")
    else if q.x < now then .error (unauthorized "signature expired")
    else match q.range with
      | none => .error (unauthorized "Range header required")
      | some header =>
        match parseByteRangeHeader header with
        | .error e => .error (badReq e)
        | .ok (reqStart, reqEndInclusive) =>
          if reqStart ≠ q.s ∨ reqEndInclusive ≠ q.e then
            .error (unauthorized "Range header does not match signed range")
          else match st.getXorbRange xorb q.s.toNat (q.e + 1).toNat with
            | .error e => .error (ApiError.ofCore e)
            | .ok bytes => .ok ⟨206, bytes, bytes.length, ascii "bytes ".toList ++ decimal q.s ++
                ascii "-".toList ++ decimal q.e ++ ascii "/*".toList⟩

/-! ## Runs -/

/-- The server, and the calls of `build_signed_url` so far. -/
structure Signer where
  server : ServerState
  calls : List SignedRange

def Signer.empty : Signer := ⟨ServerState.empty, []⟩

inductive SignerAct where
  | request (a : Request)
  | reconstruct (now : UInt64) (pick : List FileRow → Option FileRow) (repoId : String)
      (h : FileHash)

def signerStep (svc : Service) (base : List UInt8) (s : Signer) (a : SignerAct) :
    Option Signer :=
  match a with
  | .request a => some { s with server := handle svc s.server a }
  | .reconstruct now pick repoId h =>
    some { s with
      calls := s.calls ++ (signedReconstruction mac base now s.server.db pick repoId h).log }

/-- Who presents the MAC of a message has it from the server, which has signed the message. -/
def Unforgeable (calls : List SignedRange) (q : TransferRequest) : Prop :=
  sign mac q.claimed <+: q.sig → q.claimed.message ∈ calls.map SignedRange.message

end Handlers

/-! ## What a signature says -/

theorem foldl_or_eq_zero {l : List (UInt8 × UInt8)} {init : UInt32}
    (h : l.foldl (fun acc xy => acc ||| UInt32.ofNat (xy.1 ^^^ xy.2).toNat) init = 0) :
    init = 0 ∧ ∀ xy ∈ l, xy.1 = xy.2 := by
  induction l generalizing init with
  | nil => exact ⟨h, fun _ hmem => absurd hmem List.not_mem_nil⟩
  | cons xy l ih =>
      obtain ⟨hor, hrest⟩ := ih h
      obtain ⟨hinit, hxor⟩ := UInt32.or_eq_zero_iff.1 hor
      have hbyte : (xy.1 ^^^ xy.2).toNat = 0 := by
        have hlt := (xy.1 ^^^ xy.2).toNat_lt
        have hnat := congrArg UInt32.toNat hxor
        rw [UInt32.toNat_ofNat'] at hnat
        simp only [UInt32.toNat_zero] at hnat
        omega
      refine ⟨hinit, fun p hp => ?_⟩
      rcases List.mem_cons.1 hp with rfl | hp
      · exact UInt8.xor_eq_zero_iff.1 (UInt8.toNat_inj.1 hbyte)
      · exact hrest p hp

/-- **The comparison with a short secret**: what is accepted starts with it. -/
theorem prefix_of_ctEq {a b : List UInt8} (ha : a.length < 4294967296) (h : ctEq a b = true) :
    a <+: b := by
  unfold ctEq at h
  obtain ⟨hlen, hbytes⟩ := foldl_or_eq_zero (beq_iff_eq.1 h)
  have hle : a.length ≤ b.length := by
    have hnat := congrArg UInt32.toNat hlen
    rw [UInt32.toNat_ofNat', Nat.xor_mod_two_pow] at hnat
    have hsame := xor_eq_zero_iff.1 hnat
    omega
  rw [List.prefix_iff_eq_take]
  refine List.ext_getElem (by rw [List.length_take]; omega) (fun i hi hi' => ?_)
  have hib : i < b.length := by omega
  have hmem : (a[i], b[i]) ∈ a.zip b := by
    rw [← List.getElem_zip (h := by rw [List.length_zip]; omega)]
    exact List.getElem_mem _
  rw [List.getElem_take]
  exact hbytes _ hmem

theorem decimal_ne_bar (n : UInt64) : 124 ∉ decimal n := by
  unfold decimal ascii
  intro hmem
  obtain ⟨c, hc, heq⟩ := List.mem_map.1 hmem
  have hdigit := Nat.isDigit_of_mem_toDigits (by decide) (by decide) hc
  have hhigh : c.toNat ≤ 57 := (Char.isDigit_iff_toNat.1 hdigit).2
  have hnat := congrArg UInt8.toNat heq
  rw [UInt8.toNat_ofNat'] at hnat
  change c.toNat % 256 = 124 at hnat
  omega

theorem decimal_injective {n m : UInt64} (h : decimal n = decimal m) : n = m := by
  have hback : ∀ k : Nat, (ascii (Nat.toDigits 10 k)).map (fun b => Char.ofNat b.toNat) =
      Nat.toDigits 10 k := by
    intro k
    unfold ascii
    rw [List.map_map]
    refine (List.map_congr_left (fun c hc => ?_)).trans (List.map_id _)
    have hdigit := Nat.isDigit_of_mem_toDigits (by decide) (by decide) hc
    have hhigh : c.toNat ≤ 57 := (Char.isDigit_iff_toNat.1 hdigit).2
    have hbyte : (UInt8.ofNat c.toNat).toNat = c.toNat := by
      rw [UInt8.toNat_ofNat']
      omega
    simp [hbyte]
  have hdigits : Nat.toDigits 10 n.toNat = Nat.toDigits 10 m.toNat := by
    rw [← hback n.toNat, ← hback m.toNat]
    exact congrArg (List.map (fun b => Char.ofNat b.toNat)) h
  have hvalue := congrArg (fun ds => Nat.ofDigitChars 10 ds 0) hdigits
  simp only [Nat.ofDigitChars_ten_toDigits] at hvalue
  exact UInt64.toNat_inj.1 hvalue

/-- The last field of a message, and what is before it. -/
theorem last_field {a a' b b' : List UInt8} (hb : 124 ∉ b) (hb' : 124 ∉ b')
    (h : a ++ 124 :: b = a' ++ 124 :: b') : a = a' ∧ b = b' := by
  have hrev := congrArg List.reverse h
  simp only [List.reverse_append, List.reverse_cons, List.append_assoc, List.singleton_append]
    at hrev
  have htake : ∀ x z : List UInt8, 124 ∉ x →
      (x ++ 124 :: z).takeWhile (fun c => c ≠ 124) = x := by
    intro x z hx
    have hall : ∀ c ∈ x, decide (c ≠ 124) = true := by
      intro c hc
      exact decide_eq_true (fun heq => hx (heq ▸ hc))
    rw [List.takeWhile_append_of_pos hall]
    simp
  have hlast := congrArg (List.takeWhile (fun c => decide (c ≠ 124))) hrev
  rw [htake _ _ (by simpa using hb), htake _ _ (by simpa using hb')] at hlast
  rw [hlast] at hrev
  have hfirst := (List.cons.inj (List.append_cancel_left hrev)).2
  exact ⟨List.reverse_injective hfirst, List.reverse_injective hlast⟩

/-- **The signed message determines what is signed.** -/
theorem message_injective {r r' : SignedRange} (h : r.message = r'.message) : r = r' := by
  unfold SignedRange.message at h
  obtain ⟨h, hexp⟩ := last_field (decimal_ne_bar _) (decimal_ne_bar _) h
  obtain ⟨h, hend⟩ := last_field (decimal_ne_bar _) (decimal_ne_bar _) h
  obtain ⟨hhash, hstart⟩ := last_field (decimal_ne_bar _) (decimal_ne_bar _) h
  cases r
  cases r'
  simp only [SignedRange.mk.injEq]
  exact ⟨hhash, decimal_injective hstart, decimal_injective hend, decimal_injective hexp⟩

/-! ## What is signed -/

/-- Every stored frame has its header. -/
def HasHeaders (db : Db) : Prop := ∀ row ∈ db.xorbFrames, headerLen ≤ row.frame.onDiskLen.toNat

theorem hasHeaders_registerXorbLayout {db : Db} (h : HasHeaders db) {r : XorbRequest}
    {layout : List XorbFrameRow} (hlayout : parseXorb r = .ok layout) :
    HasHeaders (db.registerXorbLayout r.hash layout) := by
  obtain ⟨frames, hparse, rfl⟩ := parseXorb_ok hlayout
  intro row hrow
  rw [Db.xorbFrames_registerXorbLayout, Table.insertAll_eq_append_fresh] at hrow
  rcases List.mem_append.1 hrow with hold | hnew
  · exact h row hold
  · obtain ⟨f, hf, rfl⟩ := List.mem_map.1 (Table.mem_fresh hnew).1
    obtain ⟨fi, hfi, rfl⟩ := List.mem_map.1 hf
    exact (prefixTiling_of_parse hparse).headers fi.1 (List.fst_mem_of_mem_zipIdx hfi)

theorem hasHeaders_handle (svc : Service) {st : ServerState} (h : HasHeaders st.db) (a : Request) :
    HasHeaders (handle svc st a).db := by
  have hsame : ∀ db : Db, db.xorbFrames = st.db.xorbFrames → HasHeaders db := by
    intro db hdb row hrow
    exact h row (hdb ▸ hrow)
  cases a with
  | quota owner limitBytes => exact hsame _ (setOwnerQuota_frame st.db owner limitBytes).2.2.1
  | xorb r =>
      simp only [handle]
      cases hup : uploadXorb svc st r with
      | error e => exact h
      | ok res =>
          obtain ⟨-, -, layout, hlayout, hdb, -, -⟩ := uploadXorb_cases hup
          simp only
          rw [hdb]
          exact hasHeaders_registerXorbLayout h hlayout
  | shard r =>
      simp only [handle]
      rcases uploadShard_cases svc st r with ⟨e, -, hres⟩ | ⟨parsed, -, hres⟩
      · rw [hres]
        exact h
      · have hblocks := (registerCasBlocks_frame st.db parsed.casBlocks r.now).2.2.1
        rcases hres with ⟨e, hres, -⟩ | ⟨files, -, -, hres⟩
        · rw [hres]
          exact hsame _ hblocks
        · rw [hres]
          exact hsame _ (((registerFiles_frame _ r.repo files r.now).2.2.1).trans hblocks)

/-- The server signs ranges of xorbs that `u32` frames lie in. -/
def Issued (r : SignedRange) : Prop :=
  (∃ xorb, r.hashHex = encodeHash xorb) ∧ r.endInclusive.toNat < 8589934592

section Runs

variable (mac : List UInt8 → Hash32) (svc : Service) (base : List UInt8)

theorem mem_of_layouts {db : Db} {xorbs : List XorbHash} {x : XorbHash}
    {layout : List XorbFrameRow} (h : db.xorbFrameLayouts xorbs x = some layout)
    {f : XorbFrameRow} (hf : f ∈ layout) : ∃ row ∈ db.xorbFrames, row.frame = f := by
  unfold Db.xorbFrameLayouts at h
  split_ifs at h
  rw [← Option.some.inj h] at hf
  obtain ⟨row, hrow, rfl⟩ := List.mem_map.1 hf
  exact ⟨row, (mem_framesOf.1 ((List.mem_insertionSort _).1 hrow)).1, rfl⟩

/-- The last byte of a frame, for `u64`. -/
theorem toNat_lastByte {f : XorbFrameRow} (h : headerLen ≤ f.onDiskLen.toNat) :
    (f.onDiskStart.toUInt64 + f.onDiskLen.toUInt64 - 1).toNat =
      f.onDiskStart.toNat + f.onDiskLen.toNat - 1 := by
  have hstart := f.onDiskStart.toNat_lt
  have hlen := f.onDiskLen.toNat_lt
  unfold headerLen at h
  have hle : (1 : UInt64) ≤ f.onDiskStart.toUInt64 + f.onDiskLen.toUInt64 := by
    rw [UInt64.le_iff_toNat_le, UInt64.toNat_add]
    simp only [UInt64.toNat_one, UInt32.toNat_toUInt64]
    omega
  rw [UInt64.toNat_sub_of_le _ _ hle, UInt64.toNat_add]
  simp only [UInt64.toNat_one, UInt32.toNat_toUInt64]
  omega

theorem issued_signedTerm {db : Db} (h : HasHeaders db) (now : UInt64) (xorbs : List XorbHash)
    (t : FileTerm) :
    Traced.AllLogged Issued (signedTerm mac base now (db.xorbFrameLayouts xorbs) t) := by
  unfold signedTerm
  cases hlayout : db.xorbFrameLayouts xorbs t.xorb with
  | none => exact Traced.allLogged_lift _
  | some layout =>
      simp only
      split_ifs with hframes
      · refine Traced.allLogged_bind.2 ⟨fun r hr => ?_, fun url _ => Traced.allLogged_pure _⟩
        rw [List.mem_singleton.1 hr]
        obtain ⟨row, hrow, hframe⟩ := mem_of_layouts hlayout
          (List.get_mem layout ⟨t.chunkIdxEnd.toNat - 1, hframes.last_lt⟩)
        have hheader := h row hrow
        rw [hframe] at hheader
        refine ⟨⟨t.xorb, rfl⟩, ?_⟩
        rw [toNat_lastByte hheader]
        have hstart := (layout.get ⟨t.chunkIdxEnd.toNat - 1, hframes.last_lt⟩).onDiskStart.toNat_lt
        have hlen := (layout.get ⟨t.chunkIdxEnd.toNat - 1, hframes.last_lt⟩).onDiskLen.toNat_lt
        omega
      · exact Traced.allLogged_lift _

/-- **Every call of `build_signed_url` is for a range that frames lie in.** -/
theorem issued_signedReconstruction {db : Db} (h : HasHeaders db) (now : UInt64)
    (pick : List FileRow → Option FileRow) (repoId : String) (file : FileHash) :
    Traced.AllLogged Issued (signedReconstruction mac base now db pick repoId file) := by
  unfold signedReconstruction
  split_ifs with hrepo
  · refine Traced.allLogged_bind.2 ⟨Traced.allLogged_lift _, fun terms _ => ?_⟩
    cases terms with
    | none => exact Traced.allLogged_lift _
    | some terms =>
        exact Traced.allLogged_bind.2 ⟨Traced.allLogged_mapM (fun t _ =>
          issued_signedTerm mac base h now _ t), fun found _ => Traced.allLogged_pure _⟩
  · exact Traced.allLogged_lift _

/-- The terms of the response, without their URLs. -/
theorem signedTerm_result {db : Db} (h : HasHeaders db) (now : UInt64) (xorbs : List XorbHash)
    (t : FileTerm) :
    (signedTerm mac base now (db.xorbFrameLayouts xorbs) t).result.map Prod.fst =
      reconstructTerm (db.xorbFrameLayouts xorbs) t := by
  unfold signedTerm reconstructTerm
  cases hlayout : db.xorbFrameLayouts xorbs t.xorb with
  | none => rfl
  | some layout =>
      simp only
      unfold termByteRange
      split_ifs with hframes
      · obtain ⟨row, hrow, hframe⟩ := mem_of_layouts hlayout
          (List.get_mem layout ⟨t.chunkIdxEnd.toNat - 1, hframes.last_lt⟩)
        have hheader := h row hrow
        rw [hframe] at hheader
        simp only [buildSignedUrl, bind, Except.bind, Traced.pure_result,
          Except.map, toNat_lastByte hheader, UInt32.toNat_toUInt64]
        rfl
      · rfl

/-- **Apart from the URLs, the response is that of `get_reconstruction`.** -/
theorem signedReconstruction_result {db : Db} (h : HasHeaders db) (now : UInt64)
    (pick : List FileRow → Option FileRow) (repoId : String) (file : FileHash) :
    (signedReconstruction mac base now db pick repoId file).result.map Prod.fst =
      getReconstruction db pick repoId file := by
  unfold signedReconstruction getReconstruction buildReconstructionResponse
  split_ifs with hrepo
  · rw [Traced.bind_result, Traced.lift_result]
    cases hlookup : (db.lookupFile pick file).mapError ApiError.ofCore with
    | error e => rfl
    | ok terms =>
        cases terms with
        | none => rfl
        | some terms =>
            have hterms := Results.mapM_map Prod.fst (fun t => signedTerm_result mac base h now
              (terms.map (fun t => t.xorb)) t) terms
            show Except.map Prod.fst (terms.mapM (signedTerm mac base now
                (db.xorbFrameLayouts (terms.map (fun t => t.xorb)))) >>= fun found =>
                  pure ((⟨0, found.map (fun f => f.1.1), found.map (fun f => f.1.2)⟩ :
                    ReconstructionResponse), found.map Prod.snd)).result =
              (terms.mapM (reconstructTerm (db.xorbFrameLayouts (terms.map (fun t => t.xorb)))) >>=
                fun found => Except.ok (⟨0, found.map Prod.fst, found.map Prod.snd⟩ :
                  ReconstructionResponse))
            rw [Traced.bind_result, Traced.mapM_result, ← hterms]
            cases terms.mapM (fun t => (signedTerm mac base now
              (db.xorbFrameLayouts (terms.map (fun t => t.xorb))) t).result) with
            | error e => rfl
            | ok found =>
                simp only [bind, Except.bind, Except.map, Traced.pure_result, List.map_map]
                rfl
  · rfl

structure SignerInv (s : Signer) : Prop where
  headers : HasHeaders s.server.db
  issued : ∀ r ∈ s.calls, Issued r

theorem signerInv_run {acts : List SignerAct} {s : Signer}
    (hrun : Machine.run (signerStep mac svc base) Signer.empty acts = some s) : SignerInv s := by
  have hstep : ∀ s a s', SignerInv s → signerStep mac svc base s a = some s' → SignerInv s' := by
    intro s a s' hs hs'
    cases a with
    | request a =>
        simp only [signerStep, Option.some.injEq] at hs'
        rw [← hs']
        exact ⟨hasHeaders_handle svc hs.headers a, hs.issued⟩
    | reconstruct now pick repoId h =>
        simp only [signerStep, Option.some.injEq] at hs'
        rw [← hs']
        refine ⟨hs.headers, fun r hr => ?_⟩
        rcases List.mem_append.1 hr with hr | hr
        · exact hs.issued r hr
        · exact issued_signedReconstruction mac base hs.headers now pick repoId h r hr
  exact Machine.run_invariant_of_step hstep
    ⟨fun row hrow => absurd hrow List.not_mem_nil, fun r hr => absurd hr List.not_mem_nil⟩ hrun

/-- Requests alone sign nothing. -/
theorem run_requests (reqs : List Request) (s : Signer) :
    Machine.run (signerStep mac svc base) s (reqs.map SignerAct.request) =
      some ⟨reqs.foldl (handle svc) s.server, s.calls⟩ := by
  induction reqs generalizing s with
  | nil => rfl
  | cons a reqs ih =>
      simp only [List.map_cons, Machine.run, signerStep, Option.bind_some, List.foldl_cons]
      exact ih { s with server := handle svc s.server a }

/-! ## Transfers -/

/-- What a transfer that is answered has passed. -/
theorem getXorbTransfer_ok {st : ServerState} {now : UInt64} {q : TransferRequest}
    {resp : TransferResponse} (h : getXorbTransfer mac st now q = .ok resp) :
    ∃ xorb header, q.hashHex = encodeHash xorb ∧ ctEq (sign mac q.claimed) q.sig = true ∧
      now ≤ q.x ∧ q.range = some header ∧ Denotes header q.s q.e ∧
      st.getXorbRange xorb q.s.toNat (q.e + 1).toNat = .ok resp.body := by
  unfold getXorbTransfer at h
  split at h
  · cases h
  · rename_i xorb hxorb
    split_ifs at h with hsig hexp
    split at h
    · cases h
    · rename_i header hheader
      split at h
      · cases h
      · rename_i reqStart reqEnd hparse
        split_ifs at h with hrange
        split at h
        · cases h
        · rename_i bytes hbytes
          obtain ⟨rfl, rfl⟩ : reqStart = q.s ∧ reqEnd = q.e := by
            by_contra hne
            exact hrange (by by_cases hs : reqStart = q.s <;> simp_all)
          refine ⟨xorb, header, decodeHash_iff.1 hxorb, hsig, UInt64.not_lt.1 hexp,
            hheader, (parseByteRangeHeader_iff.1 hparse).1, ?_⟩
          rw [hbytes, ← Except.ok.inj h]

theorem getXorbRange_ok {st : ServerState} {xorb : XorbHash} {start e : Nat} {bytes : List UInt8}
    (h : st.getXorbRange xorb start (e + 1) = .ok bytes) :
    ∃ body, st.blobs xorb = some body ∧
      bytes = (body.take (min e (body.length - 1) + 1)).drop start := by
  unfold ServerState.getXorbRange at h
  split_ifs at h with hinverted
  split at h
  · cases h
  · rename_i body hbody
    split_ifs at h with hpast
    refine ⟨body, hbody, ?_⟩
    rw [← Except.ok.inj h]
    congr 1
    by_cases hin : e ≤ body.length - 1
    · rw [Nat.min_eq_left hin]
    · rw [Nat.min_eq_right (by omega), List.take_of_length_le (by omega),
        List.take_of_length_le (by omega)]

/-- **A transfer that is answered was signed for exactly its range**: what is signed is determined by
    the signed message, the end of a signed range has a successor, and whoever gets content has a URL
    of the server for the xorb, the range and the expiry, in time and with the `Range` header for it,
    and gets the bytes of that range. -/
theorem transfer_within_signed_range {acts : List SignerAct} {s : Signer}
    (hrun : Machine.run (signerStep mac svc base) Signer.empty acts = some s) :
    (∀ r r' : SignedRange, r.message = r'.message → r = r') ∧
    (∀ r ∈ s.calls, r.endInclusive.toNat + 1 < 18446744073709551616) ∧
    ∀ now q resp, Unforgeable mac s.calls q → getXorbTransfer mac s.server now q = .ok resp →
      ∃ xorb header body, decodeHash q.hashHex = .ok xorb ∧
        ⟨encodeHash xorb, q.s, q.e, q.x⟩ ∈ s.calls ∧ now ≤ q.x ∧
        q.range = some header ∧ Denotes header q.s q.e ∧ s.server.blobs xorb = some body ∧
        resp.body = (body.take (min q.e.toNat (body.length - 1) + 1)).drop q.s.toNat := by
  have hinv := signerInv_run mac svc base hrun
  refine ⟨fun r r' => message_injective, fun r hr => ?_, fun now q resp hforge hresp => ?_⟩
  · have hlt := (hinv.issued r hr).2
    omega
  · obtain ⟨xorb, header, hhash, hsig, hnow, hheader, hdenotes, hrange⟩ :=
      getXorbTransfer_ok mac hresp
    -- the comparison accepts only what starts with the MAC
    have hsigned : sign mac q.claimed <+: q.sig := by
      refine prefix_of_ctEq ?_ hsig
      unfold sign
      rw [Hex.length_encode, (mac q.claimed.message).length_eq]
      decide
    obtain ⟨r, hr, hmessage⟩ := List.mem_map.1 (hforge hsigned)
    have hclaimed := message_injective hmessage
    subst hclaimed
    have hend : (q.e + 1).toNat = q.e.toNat + 1 := by
      have hlt : q.e.toNat < 8589934592 := (hinv.issued q.claimed hr).2
      rw [UInt64.toNat_add, UInt64.toNat_one]
      omega
    rw [hend] at hrange
    obtain ⟨body, hbody, hbytes⟩ := getXorbRange_ok hrange
    refine ⟨xorb, header, body, decodeHash_iff.2 hhash, ?_, hnow, hheader, hdenotes, hbody,
      hbytes⟩
    rw [← hhash]
    exact hr

end Runs

namespace Sample

/-- The first nine bytes of the xorb `hash32 0x61`, until ten minutes after. -/
def signedBytes : SignedRange := ⟨encodeHash (hash32 0x61), 0, 8, 1700000600⟩

/-- HMAC-SHA256 under a secret of zeros, on the message of `signedBytes`. -/
def hmacBytes : List UInt8 :=
  [0xc8, 0x6a, 0x1f, 0x75, 0x11, 0xee, 0xa2, 0x46, 0x3a, 0x98, 0xcf, 0xf6, 0xbb, 0x0c,
    0x8c, 0x67, 0xe5, 0x9b, 0x2c, 0x0c, 0xe6, 0xde, 0xac, 0x8b, 0x4e, 0xf0, 0x47, 0x27,
    0x21, 0x8b, 0x1b, 0x02]

def hmac (message : List UInt8) : Hash32 :=
  if message = signedBytes.message then ⟨hmacBytes, rfl⟩ else hash32 0

def signedActs : List SignerAct :=
  fileUploaded.map SignerAct.request ++ [.reconstruct 1700000000 List.head? repo.repoId (hash32 1)]

/-- The server after the reconstruction. -/
def signer : Signer :=
  ⟨after fileUploaded, (signedReconstruction hmac [] 1700000000 (after fileUploaded).db List.head?
    repo.repoId (hash32 1)).log⟩

/-- The transfer with the URL of the reconstruction. -/
def transfer : TransferRequest :=
  ⟨signedBytes.hashHex, 0, 8, 1700000600, Hex.encode hmacBytes,
    some (ascii "bytes=0-8".toList)⟩

end Sample

theorem transfer_within_signed_range_sample :
    ∃ xorb header body, decodeHash Sample.transfer.hashHex = .ok xorb ∧
      ⟨encodeHash xorb, 0, 8, 1700000600⟩ ∈ Sample.signer.calls ∧
      (1700000000 : UInt64) ≤ 1700000600 ∧ Sample.transfer.range = some header ∧
      Denotes header 0 8 ∧ Sample.signer.server.blobs xorb = some body ∧
      [0, 1, 0, 0, 0, 1, 0, 0, 0x61] =
        (body.take (min (8 : UInt64).toNat (body.length - 1) + 1)).drop (0 : UInt64).toNat := by
  have hrun : Machine.run (signerStep Sample.hmac Sample.service []) Signer.empty
      Sample.signedActs = some Sample.signer := by
    unfold Sample.signedActs
    rw [Machine.run_append, run_requests]
    simp only [Option.bind_some, Machine.run, signerStep, Signer.empty, List.nil_append]
    unfold Sample.signer Sample.after
    rfl
  obtain ⟨-, -, htransfer⟩ := transfer_within_signed_range Sample.hmac Sample.service [] hrun
  exact htransfer 1700000000 Sample.transfer
    ⟨206, [0, 1, 0, 0, 0, 1, 0, 0, 0x61], 9, ascii "bytes 0-8/*".toList⟩
    (fun _ => by decide +kernel) (by decide +kernel)

end BaleForGit.Server
