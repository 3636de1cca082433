import BaleForGit.Client.CleanCache
import BaleForGit.Library.Texts

set_option autoImplicit false

/-! # Which blobs are pointers (`pointer.rs`, `mount/reader.rs`, `clean_cache.rs`)

Three tests read the same JSON text. `parse_pointer` trims it and parses it as a `XetFileInfo`; the
mount looks at the first 64 bytes before it does; and `forget_hashes` looks up the hash in the
untrimmed text, parsed as a `Value`. What they need of `serde_json` is `JsonLaws`. -/

namespace BaleForGit

open Texts

/-! ## The mount -/

/-- The bytes of `POINTER_SENTINEL`, among the first 64. -/
def looksLikePointer (bytes : List UInt8) : Bool :=
  if bytes.length > pointerMaxBytes then false
  else (bytes.take (min bytes.length 64)).tails.any
    (fun w => (asBytes pointerSentinel).isPrefixOf w)

section Mount

variable (fromStr : String → Option XetFileInfo)

/-- The pointer that the mount takes a blob for. -/
def mountPointer (data : List UInt8) : Option XetFileInfo :=
  if looksLikePointer data then
    match parsePointer fromStr data with
    | .ok info => some info
    | .error _ => none
  else none

/-- `size_of`, from the data of the blob on. -/
def sizeOf (oid : String) (data : List UInt8) : Except String Nat :=
  if looksLikePointer data then
    match parsePointer fromStr data with
    | .ok info =>
      match info.fileSize with
      | some size => .ok size
      | none => .error ("bale pointer " ++ oid ++ " missing file_size")
    -- a plain blob with the sentinel in it
    | .error _ => .ok data.length
  else .ok data.length

/-- The mount and `parse_pointer` say the same about a blob. -/
def MountAgrees (data : List UInt8) : Prop :=
  (looksLikePointer data = true ∧ ∃ info, parsePointer fromStr data = .ok info) ↔
    ∃ info, parsePointer fromStr data = .ok info

/-- The sentinel is among the first 64 bytes. -/
def SentinelEarly (data : List UInt8) : Prop := asBytes pointerSentinel <:+: data.take 64

theorem looksLikePointer_iff {data : List UInt8} (hlen : data.length ≤ pointerMaxBytes) :
    looksLikePointer data = true ↔ SentinelEarly data := by
  have htake : data.take (min data.length 64) = data.take 64 := by
    rw [min_comm, ← List.take_eq_take_min]
  unfold looksLikePointer SentinelEarly
  rw [if_neg (Nat.not_lt.2 hlen), htake, List.any_eq_true, List.infix_iff_prefix_suffix]
  constructor
  · rintro ⟨w, hw, hpre⟩
    exact ⟨w, List.isPrefixOf_iff_prefix.1 hpre, (List.mem_tails _ _).1 hw⟩
  · rintro ⟨w, hpre, hsuf⟩
    exact ⟨w, (List.mem_tails _ _).2 hsuf, List.isPrefixOf_iff_prefix.2 hpre⟩

/-- **When the mount agrees**: what parses has the sentinel early. -/
theorem mountAgrees_iff (data : List UInt8) : MountAgrees fromStr data ↔
    ((∃ info, parsePointer fromStr data = .ok info) → SentinelEarly data) := by
  unfold MountAgrees
  constructor
  · rintro h ⟨info, hinfo⟩
    have hlen := (parsePointer_length fromStr hinfo).2
    exact (looksLikePointer_iff hlen).1 (h.2 ⟨info, hinfo⟩).1
  · intro h
    refine ⟨fun hboth => hboth.2, fun hparse => ⟨?_, hparse⟩⟩
    obtain ⟨info, hinfo⟩ := hparse
    exact (looksLikePointer_iff (parsePointer_length fromStr hinfo).2).2 (h ⟨info, hinfo⟩)

/-- A pointer that is not seen early is presented as the plain file of its text. -/
theorem presented_plain {data : List UInt8} (hlen : data.length ≤ pointerMaxBytes)
    (hlate : ¬ SentinelEarly data) (oid : String) :
    mountPointer fromStr data = none ∧ sizeOf fromStr oid data = .ok data.length := by
  have hlooks : ¬ looksLikePointer data = true := fun h => hlate ((looksLikePointer_iff hlen).1 h)
  unfold mountPointer sizeOf
  rw [if_neg hlooks, if_neg hlooks]
  exact ⟨rfl, rfl⟩

end Mount

/-! ## The clean cache -/

/-- White space of JSON. -/
def isJsonBlank (c : Char) : Bool := c == ' ' || c == '\t' || c == '\n' || c == '\r'

section Json

variable {Value : Type}

/-- What `serde_json` does to a text: `fromStr` parses it as a `XetFileInfo`, `untyped` as a `Value`,
    and `hashOf` is `.get("hash")` and `.as_str()`. -/
structure JsonLaws (fromStr : String → Option XetFileInfo) (untyped : String → Option Value)
    (isObject : Value → Prop) (hashOf : Value → Option String) : Prop where
  blanks : ∀ a t b : List Char, (∀ c ∈ a ++ b, isJsonBlank c = true) →
    untyped (String.ofList (a ++ t ++ b)) = untyped (String.ofList t)
  start : ∀ (a t : List Char) (c : Char), (∀ x ∈ a, isJsonBlank x = true) →
    isWhiteSpace c = true → isJsonBlank c = false → untyped (String.ofList (a ++ c :: t)) = none
  stop : ∀ (t b : List Char) (c : Char), (∀ x ∈ b, isJsonBlank x = true) →
    isWhiteSpace c = true → isJsonBlank c = false → untyped (String.ofList (t ++ c :: b)) = none
  object : ∀ text info v, fromStr text = some info → untyped text = some v → isObject v →
    hashOf v = some info.hash
  other : ∀ v, ¬ isObject v → hashOf v = none

/-- The calls into `serde_json`, with the lookup of the hash made up of its two steps. -/
def serdeOf (fromStr : String → Option XetFileInfo) (pretty : XetFileInfo → String)
    (untyped : String → Option Value) (hashOf : Value → Option String) : Serde :=
  ⟨fromStr, pretty, fun text => (untyped text).bind hashOf⟩

/-- The blanks around a text are JSON's. -/
def JsonPadded (text : List Char) : Prop :=
  ∃ a b : List Char, text = a ++ trim text ++ b ∧ ∀ c ∈ a ++ b, isJsonBlank c = true

/-- `forget_hashes` removes the entry for every set with the hash that its pointer parses to. -/
def Forgotten (serde : Serde) (entry : CacheEntry) : Prop :=
  ∀ info, parsePointer serde.fromStr (asBytes entry.pointer) = .ok info →
    ∀ (cache : CleanCache String) key hashes, cache key = some entry → info.hash ∈ hashes →
      cache.forgetHashes serde hashes key = none

/-- The text of the pointer, trimmed, is an object as a `Value` too, and the blanks around it are
    JSON's. -/
def UntypedObject (untyped : String → Option Value) (isObject : Value → Prop) (pointer : String) :
    Prop :=
  JsonPadded pointer.toList ∧
    ∃ v, untyped (String.ofList (trim pointer.toList)) = some v ∧ isObject v

variable {fromStr : String → Option XetFileInfo} {untyped : String → Option Value}
  {isObject : Value → Prop} {hashOf : Value → Option String}

/-- A text with other blanks around it is no JSON. -/
theorem JsonLaws.untyped_eq_none (laws : JsonLaws fromStr untyped isObject hashOf) {text : List Char}
    (h : ¬ JsonPadded text) : untyped (String.ofList text) = none := by
  obtain ⟨a, b, htext, hblank⟩ := exists_trimBy isWhiteSpace text
  change text = a ++ trim text ++ b at htext
  have hnot : ¬ ∀ c ∈ a ++ b, isJsonBlank c = true := fun hall => h ⟨a, b, htext, hall⟩
  by_cases ha : ∀ c ∈ a, isJsonBlank c = true
  · have hb : ¬ ∀ c ∈ b, isJsonBlank c = true := by
      intro hb
      exact hnot (fun c hc => (List.mem_append.1 hc).elim (ha c) (hb c))
    obtain ⟨b₁, c, b₂, rfl, hb₂, hc⟩ := exists_last hb
    rw [htext, ← List.append_assoc]
    exact laws.stop _ b₂ c hb₂ (hblank c (by simp)) hc
  · obtain ⟨a₁, c, a₂, rfl, ha₁, hc⟩ := exists_first ha
    rw [htext]
    simp only [List.append_assoc, List.cons_append]
    exact laws.start a₁ _ c ha₁ (hblank c (by simp)) hc

theorem JsonLaws.untyped_trim (laws : JsonLaws fromStr untyped isObject hashOf) {text : List Char}
    (h : JsonPadded text) : untyped (String.ofList text) = untyped (String.ofList (trim text)) := by
  obtain ⟨a, b, htext, hblank⟩ := h
  have hpad := laws.blanks a (trim text) b hblank
  rw [← htext] at hpad
  exact hpad

/-- What `parse_pointer` parses is the trimmed text. -/
theorem fromStr_of_parsePointer {pointer : String} {info : XetFileInfo}
    (h : parsePointer fromStr (asBytes pointer) = .ok info) :
    fromStr (String.ofList (trim pointer.toList)) = some info := by
  unfold parsePointer at h
  rw [fromUtf8_asBytes] at h
  simp only at h
  split_ifs at h
  cases hfrom : fromStr (String.ofList (trim pointer.toList)) with
  | none =>
      rw [hfrom] at h
      cases h
  | some info' =>
      rw [hfrom] at h
      rw [Except.ok.inj h]

theorem forgetHashes_eq_none {serde : Serde} {cache : CleanCache String} {key : String}
    {entry : CacheEntry} (hkey : cache key = some entry) {hashes : Finset String} {h : String}
    (hmem : h ∈ hashes) : cache.forgetHashes serde hashes key = none ↔
      CleanCache.forgets serde hashes entry = true := by
  have hne : hashes ≠ ∅ := Finset.ne_empty_of_mem hmem
  unfold CleanCache.forgetHashes
  rw [if_neg hne, hkey, Option.filter_some]
  cases CleanCache.forgets serde hashes entry <;> simp

/-- **When an entry is forgotten**: what parses as a pointer is an object as a `Value` too, between
    blanks that JSON has. -/
theorem forgotten_iff (laws : JsonLaws fromStr untyped isObject hashOf)
    (pretty : XetFileInfo → String) (entry : CacheEntry) :
    Forgotten (serdeOf fromStr pretty untyped hashOf) entry ↔
      ((∃ info, parsePointer fromStr (asBytes entry.pointer) = .ok info) →
        UntypedObject untyped isObject entry.pointer) := by
  have htext : String.ofList entry.pointer.toList = entry.pointer := String.ofList_toList
  constructor
  · rintro hforgotten ⟨info, hinfo⟩
    have hnone := hforgotten info hinfo (fun _ => some entry) "" {info.hash} rfl
      (Finset.mem_singleton_self _)
    rw [forgetHashes_eq_none rfl (Finset.mem_singleton_self _)] at hnone
    unfold CleanCache.forgets serdeOf at hnone
    simp only at hnone
    cases hvalue : untyped entry.pointer with
    | none => simp [hvalue] at hnone
    | some v =>
        have hpadded : JsonPadded entry.pointer.toList := by
          by_contra hnot
          have := laws.untyped_eq_none hnot
          rw [htext, hvalue] at this
          cases this
        refine ⟨hpadded, v, ?_, ?_⟩
        · rw [← laws.untyped_trim hpadded, htext, hvalue]
        · by_contra hobject
          simp [hvalue, laws.other v hobject] at hnone
  · intro hcond info hinfo cache key hashes hkey hmem
    obtain ⟨hpadded, v, hv, hobject⟩ := hcond ⟨info, hinfo⟩
    rw [← laws.untyped_trim hpadded, htext] at hv
    have htrim : untyped (String.ofList (trim entry.pointer.toList)) = some v := by
      rw [← laws.untyped_trim hpadded, htext, hv]
    have hhash := laws.object _ info v (fromStr_of_parsePointer hinfo) htrim hobject
    rw [forgetHashes_eq_none hkey hmem]
    unfold CleanCache.forgets serdeOf
    simp only [hv, Option.bind_some, hhash]
    exact decide_eq_true hmem

/-- **When the three tests agree**: for a blob, when it is no pointer or has the sentinel among its
    first 64 bytes; for an entry of the clean cache, when its text is no pointer, or an object as a
    `Value` too between blanks that JSON has. -/
theorem pointer_tests_iff (laws : JsonLaws fromStr untyped isObject hashOf)
    (pretty : XetFileInfo → String) :
    (∀ data, MountAgrees fromStr data ↔
      ((∃ info, parsePointer fromStr data = .ok info) → SentinelEarly data)) ∧
    ∀ entry, Forgotten (serdeOf fromStr pretty untyped hashOf) entry ↔
      ((∃ info, parsePointer fromStr (asBytes entry.pointer) = .ok info) →
        UntypedObject untyped isObject entry.pointer) :=
  ⟨mountAgrees_iff fromStr, forgotten_iff laws pretty⟩

end Json

/-! ## Texts on which they differ -/

namespace Sample

/-- A pointer of one line. -/
def pointerText : List Char := "\x7b\"hash\":\"ab\",\"file_size\":1\x7d".toList

/-- It is parsed, between blanks of JSON, and nothing else is. -/
def typedJson (text : String) : Option XetFileInfo :=
  if trimBy isJsonBlank text.toList = pointerText then some ⟨"ab", some 1, none⟩ else none

def untypedJson (text : String) : Option Unit :=
  if trimBy isJsonBlank text.toList = pointerText then some () else none

def hashOfUnit (_ : Unit) : Option String := some "ab"

theorem jsonLaws : JsonLaws typedJson untypedJson (fun _ => True) hashOfUnit := by
  refine ⟨fun a t b h => ?_, fun a t c ha hc hnot => ?_, fun t b c hb hc hnot => ?_,
    fun text info v htext _ _ => ?_, fun v hv => absurd trivial hv⟩
  · unfold untypedJson
    rw [String.toList_ofList, String.toList_ofList, trimBy_pad h]
  · unfold untypedJson
    rw [String.toList_ofList, if_neg]
    intro heq
    have hhead := head?_trimBy (t := t) ha hnot
    rw [heq] at hhead
    obtain rfl := Option.some.inj hhead
    exact absurd hc (by decide)
  · unfold untypedJson
    rw [String.toList_ofList, if_neg]
    intro heq
    have hlast := getLast?_trimBy (t := t) hb hnot
    rw [heq] at hlast
    have hbrace : pointerText.getLast? = some '\x7d' := by decide
    rw [hbrace] at hlast
    obtain rfl := Option.some.inj hlast
    exact absurd hc (by decide)
  · unfold typedJson at htext
    split_ifs at htext
    rw [← Option.some.inj htext]
    rfl

/-- The pointer after 64 blanks. -/
def lateText : String := String.ofList (List.replicate 64 ' ' ++ pointerText)

/-- The pointer after a no-break space, which `trim` takes away and JSON does not allow. -/
def nbspEntry : CacheEntry := ⟨currentVersion, 1, [], String.ofList ('\u00a0' :: pointerText)⟩

theorem parsePointer_lateText :
    parsePointer typedJson (asBytes lateText) = .ok ⟨"ab", some 1, none⟩ := by
  have htrim : trim (List.replicate 64 ' ' ++ pointerText) = trim pointerText := by
    have hpad := trimBy_pad (p := isWhiteSpace) (a := List.replicate 64 ' ') (b := [])
      (fun c hc => by
        rw [List.append_nil] at hc
        rw [List.eq_of_mem_replicate hc]
        rfl) pointerText
    rw [List.append_nil] at hpad
    exact hpad
  have hsentinel : pointerSentinel.toList <:+: List.replicate 64 ' ' ++ pointerText :=
    List.IsInfix.trans (by decide) (List.suffix_append _ _).isInfix
  have hlen : ¬ (asBytes lateText).length > pointerMaxBytes := by
    unfold lateText
    rw [asBytes_eq, String.toList_ofList]
    decide
  unfold parsePointer
  rw [if_neg hlen, fromUtf8_asBytes]
  unfold lateText
  simp only [String.toList_ofList, htrim, if_pos hsentinel]
  rfl

theorem parsePointer_nbspEntry :
    parsePointer typedJson (asBytes nbspEntry.pointer) = .ok ⟨"ab", some 1, none⟩ := by
  unfold parsePointer
  rw [fromUtf8_asBytes, asBytes_eq]
  decide

theorem not_sentinelEarly_lateText : ¬ SentinelEarly (asBytes lateText) := by
  unfold SentinelEarly lateText
  rw [asBytes_eq, asBytes_eq, String.toList_ofList]
  decide

/-- The pointer alone, as an entry has it. -/
def plainEntry : CacheEntry := ⟨currentVersion, 1, [], String.ofList pointerText⟩

end Sample

open Sample in
/-- A pointer without anything around it is one for all three. -/
theorem pointer_tests_plain : MountAgrees typedJson (asBytes plainEntry.pointer) ∧
    Forgotten (serdeOf typedJson (fun _ => "") untypedJson hashOfUnit) plainEntry := by
  obtain ⟨hmount, hforget⟩ := pointer_tests_iff jsonLaws (fun _ => "")
  have hearly : SentinelEarly (asBytes plainEntry.pointer) := by
    unfold SentinelEarly
    rw [asBytes_eq, asBytes_eq]
    decide
  have hobject : UntypedObject untypedJson (fun _ => True) plainEntry.pointer :=
    ⟨⟨[], [], by decide, by simp⟩, (), by decide, trivial⟩
  exact ⟨(hmount _).2 fun _ => hearly, (hforget _).2 fun _ => hobject⟩

open Sample in
/-- **A pointer that the mount shows as its text**, and one that `forget_hashes` leaves. -/
theorem late_pointer_missed :
    (¬ MountAgrees typedJson (asBytes lateText) ∧
      parsePointer typedJson (asBytes lateText) = .ok ⟨"ab", some 1, none⟩ ∧
      mountPointer typedJson (asBytes lateText) = none) ∧
    ¬ Forgotten (serdeOf typedJson (fun _ => "") untypedJson hashOfUnit) nbspEntry := by
  have hlen := (parsePointer_length typedJson parsePointer_lateText).2
  refine ⟨⟨fun hagree => ?_, parsePointer_lateText,
    (presented_plain typedJson hlen not_sentinelEarly_lateText "").1⟩, fun hforgotten => ?_⟩
  · exact not_sentinelEarly_lateText
      ((mountAgrees_iff typedJson _).1 hagree ⟨_, parsePointer_lateText⟩)
  · obtain ⟨⟨a, b, htext, hblank⟩, -⟩ :=
      (forgotten_iff jsonLaws (fun _ => "") nbspEntry).1 hforgotten ⟨_, parsePointer_nbspEntry⟩
    -- what is trimmed away begins with the no-break space
    cases a with
    | nil =>
        have hhead := congrArg List.head? htext
        have hbrace : (trim nbspEntry.pointer.toList).head? = some '\x7b' := by decide
        rw [List.nil_append, List.head?_append, hbrace, Option.some_or] at hhead
        exact absurd hhead (by decide)
    | cons c a =>
        have hc : c = '\u00a0' := by
          have hhead := congrArg List.head? htext
          exact (Option.some.inj hhead).symm
        have := hblank c (by simp)
        rw [hc] at this
        exact absurd this (by decide)

end BaleForGit
