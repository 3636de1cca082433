import BaleForGit.Library.Results
import BaleForGit.Library.Texts
import BaleForGit.Library.Utf8
import BaleForGit.Pointer

set_option autoImplicit false

/-! # Remotes and the call of ssh (`remote.rs`, `resolver.rs`)

A remote URL is split into user, host, port and path by one of two grammars; the owner and the name
of the repository are checked before they get into the remote command. User and host are not, and
they make up the destination: `sshCall_safe_iff` says for which URLs the call is safe. Texts are
lists of characters. -/

namespace BaleForGit.Remote

/-! ## Splitting texts -/

/-- `str::split_once`, at a character. -/
def splitOnce (c : Char) (text : List Char) : Option (List Char × List Char) :=
  if c ∈ text then
    some (text.takeWhile (fun x => x ≠ c), (text.dropWhile (fun x => x ≠ c)).drop 1)
  else none

/-- `str::rsplit_once`. -/
def rsplitOnce (c : Char) (text : List Char) : Option (List Char × List Char) :=
  (splitOnce c text.reverse).map (fun p => (p.2.reverse, p.1.reverse))

/-- `str::split_once`, at a text. -/
def splitOnceAt (pat : List Char) : List Char → Option (List Char × List Char)
  | [] => none
  | c :: s =>
    if pat.isPrefixOf (c :: s) then some ([], (c :: s).drop pat.length)
    else (splitOnceAt pat s).map (fun p => (c :: p.1, p.2))

theorem splitOnce_eq_some {c : Char} {text a b : List Char} (h : splitOnce c text = some (a, b)) :
    text = a ++ c :: b := by
  unfold splitOnce at h
  split_ifs at h with hmem
  exact ((Texts.cut_at hmem).1 (Option.some.inj h)).1

theorem splitOnce_eq_none {c : Char} {text : List Char} : splitOnce c text = none ↔ c ∉ text := by
  unfold splitOnce
  split_ifs with h <;> simp [h]

theorem rsplitOnce_eq_some {c : Char} {text a b : List Char}
    (h : rsplitOnce c text = some (a, b)) : text = a ++ c :: b := by
  unfold rsplitOnce at h
  obtain ⟨⟨x, y⟩, hsplit, heq⟩ := Option.map_eq_some_iff.1 h
  obtain ⟨rfl, rfl⟩ := Prod.mk.inj heq
  rw [← List.reverse_reverse text, splitOnce_eq_some hsplit]
  simp

/-! ## Remote URLs -/

inductive RemoteScheme where
  | http
  | https
  | ssh
deriving DecidableEq, Repr

structure RemoteUrl where
  scheme : RemoteScheme
  user : Option (List Char)
  host : List Char
  port : Option Nat
  repoPath : List Char
deriving DecidableEq, Repr

inductive RemoteError where
  | unrecognized (s : List Char)
  | unsupportedScheme (other : List Char)
  | invalidPort (s : List Char)
  | missingHost (s : List Char)
  | noSlash (path : List Char)
  | missingName (path : List Char)
deriving DecidableEq, Repr

def withoutPlus : List Char → List Char
  | '+' :: rest => rest
  | text => text

/-- `str::parse::<u16>`: digits, after one plus sign perhaps. -/
def parseU16 (text : List Char) : Option Nat :=
  let digits := withoutPlus text
  if digits ≠ [] ∧ digits.all Char.isDigit = true ∧ Nat.ofDigitChars 10 digits 0 < 65536 then
    some (Nat.ofDigitChars 10 digits 0)
  else none

/-- What stands before an `@`, and the rest. -/
def splitUser (text : List Char) : Option (List Char) × List Char :=
  match splitOnce '@' text with
  | some (u, h) => (some u, h)
  | none => (none, text)

/-- Host and port; `none` when the port is not a number. -/
def splitPort (hostPort : List Char) : Option (List Char × Option Nat) :=
  match rsplitOnce ':' hostPort with
  | some (h, p) => (parseU16 p).map (fun port => (h, some port))
  | none => some (hostPort, none)

def stripDotGit (p : List Char) : List Char :=
  let p := p.dropWhile (fun c => c == '/')
  if ".git".toList.isSuffixOf p then p.take (p.length - 4) else p

def schemeOf (scheme : List Char) : Option RemoteScheme :=
  if scheme = "http".toList then some .http
  else if scheme = "https".toList then some .https
  else if scheme = "ssh".toList then some .ssh
  else none

def parseRemote (text : List Char) : Except RemoteError RemoteUrl :=
  let s := trim text
  match splitOnceAt "://".toList s with
  | none =>
    -- scp-style
    match splitOnce ':' s with
    | none => .error (.unrecognized s)
    | some (before, path) =>
      let (user, host) := splitUser before
      if host = [] then .error (.missingHost s)
      else .ok ⟨.ssh, some (user.getD "git".toList), host, none, stripDotGit path⟩
  | some (schemeStr, rest) =>
    match schemeOf schemeStr with
    | none => .error (.unsupportedScheme schemeStr)
    | some scheme =>
      let (authority, path) := (splitOnce '/' rest).getD (rest, [])
      let (user, hostPort) := splitUser authority
      match splitPort hostPort with
      | none => .error (.invalidPort s)
      | some (host, port) =>
        if host = [] then .error (.missingHost s)
        else
          let user := if scheme = .ssh then some (user.getD "git".toList) else user
          .ok ⟨scheme, user, host, port, stripDotGit path⟩

def RemoteUrl.ownerAndRepo (r : RemoteUrl) : Except RemoteError (List Char × List Char) :=
  match splitOnce '/' r.repoPath with
  | none => .error (.noSlash r.repoPath)
  | some (owner, repo) =>
    if owner = [] ∨ repo = [] then .error (.missingName r.repoPath) else .ok (owner, repo)

/-! ## The call -/

inductive ResolveError where
  | remote (e : RemoteError)
  | invalidLength (label : String)
  | leadingDot (label : String)
  | outsideAlphabet (label : String)
deriving DecidableEq, Repr

/-- A letter, a digit, or one of `.`, `_` and `-`. -/
def isSegmentByte (b : UInt8) : Bool :=
  let n := b.toNat
  (48 ≤ n && n ≤ 57) || (65 ≤ n && n ≤ 90) || (97 ≤ n && n ≤ 122) || n == 46 || n == 95 || n == 45

def validateSegment (label : String) (s : List Char) : Except ResolveError Unit :=
  if s = [] ∨ (Utf8.bytes s).length > 100 then .error (.invalidLength label)
  else if s.head? = some '.' then .error (.leadingDot label)
  else if ¬ (Utf8.bytes s).all isSegmentByte then .error (.outsideAlphabet label)
  else .ok ()

inductive Scope where
  | read
  | write
deriving DecidableEq, Repr

/-- The arguments of ssh: the options, the destination and the remote command. -/
structure SshCall where
  options : List (List Char)
  destination : List Char
  command : List Char
deriving DecidableEq, Repr

def Scope.op : Scope → List Char
  | .read => "download".toList
  | .write => "upload".toList

/-- `ssh_authenticate`, up to the call of ssh. -/
def sshAuthenticate (remote : RemoteUrl) (owner repo : List Char) (scope : Scope) : SshCall :=
  let user := remote.user.getD "git".toList
  { options := ["-o".toList, "BatchMode=yes".toList, "-o".toList,
      "StrictHostKeyChecking=accept-new".toList] ++
      (match remote.port with
        | some port => ["-p".toList, (toString port).toList]
        | none => [])
    destination := user ++ '@' :: remote.host
    command := "git-bale-authenticate ".toList ++ (owner ++ '/' :: repo) ++ ' ' :: scope.op }

/-- `resolve_for_remote`, up to the call of ssh; `none` for the other schemes. -/
def resolveForRemote (remote : RemoteUrl) (scope : Scope) : Except ResolveError (Option SshCall) := do
  let (owner, repo) ← remote.ownerAndRepo.mapError ResolveError.remote
  validateSegment "owner" owner
  validateSegment "repo" repo
  match remote.scheme with
  | .ssh => return some (sshAuthenticate remote owner repo scope)
  | .http => return none
  | .https => return none

/-! ## Safe calls -/

def isControl (c : Char) : Bool :=
  let n := c.toNat
  n < 32 || (127 ≤ n && n < 160)

/-- Neither white space nor a control character. -/
def isPlain (c : Char) : Bool := !isWhiteSpace c && !isControl c

/-- What a shell does not take literally, apart from blanks. -/
def shellMeta : List Char := "|&;<>()$`\\\"'*?[]#~=%!^\x7b\x7d\n".toList

/-- The words of a command. -/
def words (command : List Char) : List (List Char) :=
  (command.splitOnP isWhiteSpace).filter (fun w => w ≠ [])

/-- The destination is no option and of plain characters. -/
def PlainDestination (destination : List Char) : Prop :=
  destination.head? ≠ some '-' ∧ ∀ c ∈ destination, isPlain c = true

/-- The remote command is three words that the shell takes literally. -/
def ThreeWords (command owner repo : List Char) (scope : Scope) : Prop :=
  words command = ["git-bale-authenticate".toList, owner ++ '/' :: repo, scope.op] ∧
    ∀ c ∈ command, c ∉ shellMeta

/-- The user, host and port of a URL, as text: what stands before the first colon, or between `://`
    and the next slash. -/
def authority (text : List Char) : List Char :=
  let s := trim text
  match splitOnceAt "://".toList s with
  | none => ((splitOnce ':' s).map Prod.fst).getD s
  | some (_, rest) => ((splitOnce '/' rest).map Prod.fst).getD rest

/-- A URL without blanks and control characters in that part, which is no option when it has a
    user. -/
def PlainAuthority (text : List Char) : Prop :=
  (∀ c ∈ authority text, isPlain c = true) ∧
    ('@' ∈ authority text → (authority text).head? ≠ some '-')

/-! ## The remote command -/

/-- A character of a checked segment. -/
def IsSegmentChar (c : Char) : Prop := isSegmentByte (Utf8.byte c) = true ∧ c.toNat < 128

theorem chars_of_validateSegment {label : String} {s : List Char}
    (h : validateSegment label s = .ok ()) : s ≠ [] ∧ ∀ c ∈ s, IsSegmentChar c := by
  unfold validateSegment at h
  split_ifs at h with hlen hdot hall
  rw [List.all_eq_true] at hall
  have hascii : ∀ c ∈ s, c.toNat < 128 := by
    refine Utf8.ascii_of_bytes (fun b hb => ?_)
    have hsegment := hall b hb
    simp only [isSegmentByte, Bool.or_eq_true, Bool.and_eq_true, decide_eq_true_eq,
      beq_iff_eq] at hsegment
    omega
  refine ⟨fun hnil => hlen (Or.inl hnil), fun c hc => ⟨?_, hascii c hc⟩⟩
  exact hall _ ((Utf8.mem_bytes_iff (hascii c hc)).2 hc)

theorem IsSegmentChar.toNat {c : Char} (h : IsSegmentChar c) :
    (48 ≤ c.toNat ∧ c.toNat ≤ 57) ∨ (65 ≤ c.toNat ∧ c.toNat ≤ 90) ∨
      (97 ≤ c.toNat ∧ c.toNat ≤ 122) ∨ c.toNat = 46 ∨ c.toNat = 95 ∨ c.toNat = 45 := by
  obtain ⟨hbyte, hascii⟩ := h
  simp only [isSegmentByte, Utf8.toNat_byte hascii, Bool.or_eq_true, Bool.and_eq_true,
    decide_eq_true_eq, beq_iff_eq] at hbyte
  omega

theorem isWhiteSpace_eq_false {c : Char} (h : 33 ≤ c.toNat ∧ c.toNat < 127) :
    isWhiteSpace c = false := by
  unfold isWhiteSpace
  simp only [Bool.or_eq_false_iff, Bool.and_eq_false_iff, decide_eq_false_iff_not,
    beq_eq_false_iff_ne, ne_eq]
  omega

theorem IsSegmentChar.not_blank {c : Char} (h : IsSegmentChar c) : isWhiteSpace c = false := by
  have := h.toNat
  exact isWhiteSpace_eq_false (by omega)

/-- A check of the characters of a text, one by one. -/
theorem forall_mem_of_all {text : List Char} {p : Char → Prop} [DecidablePred p]
    (h : text.all (fun c => decide (p c)) = true) : ∀ c ∈ text, p c :=
  fun c hc => of_decide_eq_true (List.all_eq_true.1 h c hc)

theorem IsSegmentChar.not_meta {c : Char} (h : IsSegmentChar c) : c ∉ shellMeta := by
  have hall : ∀ m ∈ shellMeta, isSegmentByte (Utf8.byte m) = false :=
    forall_mem_of_all (by decide)
  intro hmem
  have hnot := hall c hmem
  rw [h.1] at hnot
  cases hnot

/-- Three texts without blanks, a blank between each two. -/
theorem words_three {a b c : List Char} (ha : a ≠ []) (hb : b ≠ []) (hc : c ≠ [])
    (hwhite : ∀ x ∈ a ++ b ++ c, isWhiteSpace x = false) :
    words (a ++ ' ' :: (b ++ ' ' :: c)) = [a, b, c] := by
  have hmem : ∀ l : List Char, l ⊆ a ++ b ++ c → ∀ x ∈ l, isWhiteSpace x = false :=
    fun l hl x hx => hwhite x (hl hx)
  have hblank : isWhiteSpace ' ' = true := by decide
  unfold words
  rw [List.splitOnP_append_cons_of_forall_mem (hmem a (by simp)) ' ' hblank,
    List.splitOnP_append_cons_of_forall_mem (hmem b (by simp)) ' ' hblank,
    List.splitOnP_eq_singleton (hmem c (by simp))]
  simp [ha, hb, hc]

/-- **The remote command is what it should be**, for every owner and name that pass the check. -/
theorem command_threeWords (remote : RemoteUrl) {owner repo : List Char} (scope : Scope)
    (howner : validateSegment "owner" owner = .ok ())
    (hrepo : validateSegment "repo" repo = .ok ()) :
    ThreeWords (sshAuthenticate remote owner repo scope).command owner repo scope := by
  obtain ⟨-, howner⟩ := chars_of_validateSegment howner
  obtain ⟨-, hrepo⟩ := chars_of_validateSegment hrepo
  have hcommand : (sshAuthenticate remote owner repo scope).command =
      "git-bale-authenticate".toList ++ ' ' :: ((owner ++ '/' :: repo) ++ ' ' :: scope.op) := by
    simp [sshAuthenticate]
  have hfixed : ∀ x ∈ "git-bale-authenticate".toList ++ scope.op,
      isWhiteSpace x = false ∧ x ∉ shellMeta :=
    forall_mem_of_all (by cases scope <;> decide)
  have hslash : isWhiteSpace '/' = false ∧ '/' ∉ shellMeta := by decide
  have hspace : ' ' ∉ shellMeta := by decide
  have hname : ∀ x ∈ owner ++ '/' :: repo, isWhiteSpace x = false ∧ x ∉ shellMeta := by
    intro x hx
    rcases List.mem_append.1 hx with hx | hx
    · exact ⟨(howner x hx).not_blank, (howner x hx).not_meta⟩
    · rcases List.mem_cons.1 hx with rfl | hx
      · exact hslash
      · exact ⟨(hrepo x hx).not_blank, (hrepo x hx).not_meta⟩
  unfold ThreeWords
  rw [hcommand]
  constructor
  · refine words_three (by decide) (by simp) (by cases scope <;> decide) (fun x hx => ?_)
    rcases List.mem_append.1 hx with hx | hx
    · rcases List.mem_append.1 hx with hx | hx
      · exact (hfixed x (List.mem_append_left _ hx)).1
      · exact (hname x hx).1
    · exact (hfixed x (List.mem_append_right _ hx)).1
  · intro x hx
    rcases List.mem_append.1 hx with hx | hx
    · exact (hfixed x (List.mem_append_left _ hx)).2
    · rcases List.mem_cons.1 hx with rfl | hx
      · exact hspace
      · rcases List.mem_append.1 hx with hx | hx
        · exact (hname x hx).2
        · rcases List.mem_cons.1 hx with rfl | hx
          · exact hspace
          · exact (hfixed x (List.mem_append_right _ hx)).2

/-! ## The destination -/

/-- What stands behind the host: nothing, or a colon and a number. -/
def IsPort (tail : List Char) : Prop :=
  tail = [] ∨ ∃ p n, tail = ':' :: p ∧ parseU16 p = some n

theorem splitPort_eq_some {hostPort host : List Char} {port : Option Nat}
    (h : splitPort hostPort = some (host, port)) : ∃ tail, hostPort = host ++ tail ∧ IsPort tail := by
  unfold splitPort at h
  cases hsplit : rsplitOnce ':' hostPort with
  | none =>
      rw [hsplit] at h
      obtain ⟨rfl, -⟩ := Prod.mk.inj (Option.some.inj h)
      exact ⟨[], (List.append_nil _).symm, Or.inl rfl⟩
  | some hp =>
      obtain ⟨a, p⟩ := hp
      rw [hsplit] at h
      obtain ⟨n, hn, heq⟩ := Option.map_eq_some_iff.1 h
      obtain ⟨rfl, -⟩ := Prod.mk.inj heq
      exact ⟨':' :: p, rsplitOnce_eq_some hsplit, Or.inr ⟨p, n, rfl, hn⟩⟩

/-- **Where user and host come from**: the authority is the user, an `@`, the host and a port. -/
theorem authority_of_parseRemote {text : List Char} {r : RemoteUrl}
    (h : parseRemote text = .ok r) (hssh : r.scheme = .ssh) :
    ∃ tail, IsPort tail ∧ splitUser (authority text) = ((splitUser (authority text)).1, r.host ++ tail) ∧
      r.user = some ((splitUser (authority text)).1.getD "git".toList) := by
  unfold parseRemote at h
  unfold authority
  cases hat : splitOnceAt "://".toList (trim text) with
  | none =>
      simp only [hat] at h ⊢
      cases hcolon : splitOnce ':' (trim text) with
      | none =>
          rw [hcolon] at h
          cases h
      | some bp =>
          obtain ⟨before, path⟩ := bp
          simp only [hcolon] at h
          simp only [Option.map_some, Option.getD_some]
          split_ifs at h with hhost
          rw [← Except.ok.inj h]
          exact ⟨[], Or.inl rfl, by rw [List.append_nil], rfl⟩
  | some sr =>
      obtain ⟨schemeStr, rest⟩ := sr
      simp only [hat] at h ⊢
      cases hscheme : schemeOf schemeStr with
      | none =>
          rw [hscheme] at h
          cases h
      | some scheme =>
          have hauth : ((splitOnce '/' rest).getD (rest, [])).1 =
              ((splitOnce '/' rest).map Prod.fst).getD rest := by
            cases splitOnce '/' rest <;> rfl
          simp only [hscheme, hauth] at h
          cases hport : splitPort (splitUser
              (((splitOnce '/' rest).map Prod.fst).getD rest)).2 with
          | none =>
              rw [hport] at h
              cases h
          | some hp =>
              obtain ⟨host, port⟩ := hp
              simp only [hport] at h
              obtain ⟨tail, htail, hisPort⟩ := splitPort_eq_some hport
              split_ifs at h with hhost hsch
              · rw [← Except.ok.inj h]
                exact ⟨tail, hisPort, by rw [← htail], rfl⟩
              · rw [← Except.ok.inj h] at hssh
                exact absurd hssh hsch

/-! ## When the call is safe -/

theorem isPlain_of_toNat {c : Char} (h : 33 ≤ c.toNat ∧ c.toNat < 127) : isPlain c = true := by
  have hcontrol : isControl c = false := by
    unfold isControl
    simp only [Bool.or_eq_false_iff, Bool.and_eq_false_iff, decide_eq_false_iff_not]
    omega
  unfold isPlain
  rw [isWhiteSpace_eq_false h, hcontrol]
  rfl

/-- A port is of plain characters, and has no `@`. -/
theorem IsPort.plain {tail : List Char} (h : IsPort tail) :
    ∀ c ∈ tail, isPlain c = true ∧ c ≠ '@' := by
  rcases h with rfl | ⟨p, n, rfl, hn⟩
  · simp
  · have hdigits : ∀ c ∈ withoutPlus p, c.isDigit = true := by
      unfold parseU16 at hn
      simp only at hn
      split_ifs at hn with hp
      exact List.all_eq_true.1 hp.2.1
    have hdigit : ∀ c : Char, c.isDigit = true → isPlain c = true ∧ c ≠ '@' := by
      intro c hc
      have hrange : 48 ≤ c.toNat ∧ c.toNat ≤ 57 := by
        simp only [Char.isDigit, Bool.and_eq_true, decide_eq_true_eq] at hc
        exact hc
      refine ⟨isPlain_of_toNat (by omega), ?_⟩
      rintro rfl
      exact absurd hrange (by decide)
    have hsign : isPlain '+' = true ∧ ('+' : Char) ≠ '@' := by decide
    intro c hc
    rcases List.mem_cons.1 hc with rfl | hc
    · decide
    · unfold withoutPlus at hdigits
      split at hdigits
      · rcases List.mem_cons.1 hc with rfl | hc
        · exact hsign
        · exact hdigit c (hdigits c hc)
      · exact hdigit c (hdigits c hc)

/-- **The destination is plain when the authority is.** -/
theorem plainDestination_iff {text : List Char} {r : RemoteUrl} (hparse : parseRemote text = .ok r)
    (hssh : r.scheme = .ssh) :
    PlainDestination (r.user.getD "git".toList ++ '@' :: r.host) ↔ PlainAuthority text := by
  obtain ⟨tail, hport, hsplit, huser⟩ := authority_of_parseRemote hparse hssh
  rw [huser, Option.getD_some]
  unfold PlainDestination PlainAuthority
  have hplain := hport.plain
  unfold splitUser at hsplit ⊢
  cases hat : splitOnce '@' (authority text) with
  | some uh =>
      obtain ⟨u, hp⟩ := uh
      rw [hat] at hsplit
      have hauth := splitOnce_eq_some hat
      obtain rfl : hp = r.host ++ tail := (Prod.mk.inj hsplit).2
      have hhead : (u ++ '@' :: r.host).head? = (authority text).head? := by
        rw [hauth]
        cases u <;> rfl
      have hmem : '@' ∈ authority text := by
        rw [hauth]
        simp
      simp only [Option.getD_some]
      rw [hhead, and_comm]
      refine and_congr ?_ ⟨fun h _ => h, fun h => h hmem⟩
      rw [hauth]
      constructor
      · intro h c hc
        have hsides : c ∈ (u ++ '@' :: r.host) ++ tail := by
          rw [List.append_assoc]
          exact hc
        rcases List.mem_append.1 hsides with hc | hc
        · exact h c hc
        · exact (hplain c hc).1
      · intro h c hc
        refine h c ?_
        have hsides : c ∈ (u ++ '@' :: r.host) ++ tail := List.mem_append_left _ hc
        rw [List.append_assoc] at hsides
        exact hsides
  | none =>
      rw [hat] at hsplit
      have hnone := splitOnce_eq_none.1 hat
      have hauth : authority text = r.host ++ tail := (Prod.mk.inj hsplit).2
      simp only [Option.getD_none]
      have hgit : ∀ c ∈ "git".toList ++ ['@'], isPlain c = true := forall_mem_of_all (by decide)
      have happend : "git".toList ++ '@' :: r.host = ("git".toList ++ ['@']) ++ r.host := by simp
      constructor
      · rintro ⟨-, h⟩
        refine ⟨fun c hc => ?_, fun hmem => absurd hmem hnone⟩
        rw [hauth] at hc
        rcases List.mem_append.1 hc with hc | hc
        · refine h c ?_
          rw [happend]
          exact List.mem_append_right _ hc
        · exact (hplain c hc).1
      · rintro ⟨h, -⟩
        refine ⟨by simp, fun c hc => ?_⟩
        rw [happend] at hc
        rcases List.mem_append.1 hc with hc | hc
        · exact hgit c hc
        · refine h c ?_
          rw [hauth]
          exact List.mem_append_left _ hc

/-- What `resolve_for_remote` calls ssh with. -/
theorem resolveForRemote_eq_ok {r : RemoteUrl} {scope : Scope} {call : SshCall}
    (h : resolveForRemote r scope = .ok (some call)) : ∃ owner repo,
      r.ownerAndRepo = .ok (owner, repo) ∧ validateSegment "owner" owner = .ok () ∧
      validateSegment "repo" repo = .ok () ∧ r.scheme = .ssh ∧
      call = sshAuthenticate r owner repo scope := by
  unfold resolveForRemote at h
  obtain ⟨⟨owner, repo⟩, hname, h⟩ := Results.bind_eq_ok.1 h
  obtain ⟨_, howner, h⟩ := Results.bind_eq_ok.1 h
  obtain ⟨_, hrepo, h⟩ := Results.bind_eq_ok.1 h
  refine ⟨owner, repo, Results.mapError_eq_ok.1 hname, howner, hrepo, ?_⟩
  cases hscheme : r.scheme with
  | http =>
      rw [hscheme] at h
      cases h
  | https =>
      rw [hscheme] at h
      cases h
  | ssh =>
      rw [hscheme] at h
      exact ⟨rfl, (Option.some.inj (Except.ok.inj h)).symm⟩

/-- The call is safe: its destination is plain, and its command the three words for the owner and
    the name in the URL. -/
def SafeCall (r : RemoteUrl) (scope : Scope) (call : SshCall) : Prop :=
  PlainDestination call.destination ∧
    ∃ owner repo, r.ownerAndRepo = .ok (owner, repo) ∧ ThreeWords call.command owner repo scope

/-- **When the call of ssh is safe**: when user and host in the URL are plain, and not an option. -/
theorem sshCall_safe_iff {text : List Char} {r : RemoteUrl} {scope : Scope} {call : SshCall}
    (hparse : parseRemote text = .ok r) (hcall : resolveForRemote r scope = .ok (some call)) :
    SafeCall r scope call ↔ PlainAuthority text := by
  obtain ⟨owner, repo, hname, howner, hrepo, hssh, rfl⟩ := resolveForRemote_eq_ok hcall
  rw [← plainDestination_iff hparse hssh]
  constructor
  · rintro ⟨hplain, -⟩
    exact hplain
  · intro hplain
    exact ⟨hplain, owner, repo, hname, command_threeWords r scope howner hrepo⟩

/-- A URL, and what it is parsed to. -/
def aliceUrl : List Char := "git@example.com:alice/repo.git".toList

def aliceRemote : RemoteUrl :=
  ⟨.ssh, some "git".toList, "example.com".toList, none, "alice/repo".toList⟩

theorem sshCall_safe_alice :
    SafeCall aliceRemote .read (sshAuthenticate aliceRemote "alice".toList "repo".toList .read) ↔
      PlainAuthority aliceUrl :=
  sshCall_safe_iff (by decide) (by decide)

/-- The user of a URL is an option of ssh. -/
theorem user_is_option : ∃ r call,
    parseRemote "-oProxyCommand=x@host:owner/repo".toList = .ok r ∧
    resolveForRemote r .read = .ok (some call) ∧ call.destination = "-oProxyCommand=x@host".toList ∧
    ¬ SafeCall r .read call := by
  refine ⟨⟨.ssh, some "-oProxyCommand=x".toList, "host".toList, none, "owner/repo".toList⟩,
    sshAuthenticate ⟨.ssh, some "-oProxyCommand=x".toList, "host".toList, none,
      "owner/repo".toList⟩ "owner".toList "repo".toList .read,
    by decide, by decide, by decide, fun h => ?_⟩
  exact h.1.1 (by decide)

end BaleForGit.Remote
