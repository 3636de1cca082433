import BaleForGit.Client.MountFuse
import BaleForGit.Client.MountView
import BaleForGit.Library.Tasks

set_option autoImplicit false

/-! # What a mount answers

Callbacks run side by side, on a tree that is read as it is looked at, with caches that fill and
handles that come and go. The ghost `path` says which path an inode stands for, as in the model of the
tree; what a callback knows is stated about paths (`Known`), so that what others do in between cannot
spoil it. A cache never holds what is not in the repository (`Caches`), and a handle is in the table
only from the answer of one `open` on (`OpenedWith`).

`mount_answers_tree` is what follows for the answers. -/

namespace BaleForGit.Mount

variable {Oid : Type}

/-! ## The files of a revision -/

section Content

variable (m : Mounted Oid) (fileOf : String → List UInt8)

/-- The bytes that a blob stands for: its own, or those of the file it points to. -/
def Mounted.contentOf (oid : Oid) : Option (List UInt8) :=
  match m.object oid with
  | none => none
  | some obj =>
    if obj.kind ≠ .blob then none
    else match mountPointer m.fromStr obj.data with
      | some info => some (fileOf info.hash)
      | none => some obj.data

/-- What a path shows, as the caller writes it. -/
def Mounted.shows (p : String) : Option (Shown Oid) := view m.ctx m.rootTree (pathComponents p)

def Mounted.HasContent (p : String) (content : List UInt8) : Prop :=
  ∃ oid, m.shows p = some (.file oid) ∧ m.contentOf fileOf oid = some content

/-- A pointer has the size of its file, where it has one. -/
def Mounted.Sized : Prop :=
  ∀ oid data info size, m.object oid = some ⟨.blob, data⟩ →
    mountPointer m.fromStr data = some info → info.fileSize = some size →
      size = (fileOf info.hash).length

/-- What the chunk cache and the server have of a file is of that file: a cached term is the part that
    comes after those before it, and a download that succeeds is the whole. -/
structure ReconstructEnv.Gives (env : ReconstructEnv) (content : List UInt8) : Prop where
  hot : ∀ terms, env.manifest = .ok (some terms) → ∀ k term bytes error, terms[k]? = some term →
    env.cacheRead k term = .data bytes error → bytes.length = term.unpackedLength →
      bytes = (content.drop (termsLength (terms.take k))).take term.unpackedLength
  cold : env.cold.error = none → env.cold.bytes = content

variable {m fileOf}

theorem Mounted.HasContent.unique {p : String} {content content' : List UInt8}
    (h : m.HasContent fileOf p content) (h' : m.HasContent fileOf p content') :
    content = content' := by
  obtain ⟨oid, hshows, hcontent⟩ := h
  obtain ⟨oid', hshows', hcontent'⟩ := h'
  rw [hshows] at hshows'
  obtain rfl := Shown.file.inj (Option.some.inj hshows')
  exact Option.some.inj (hcontent.symm.trans hcontent')

/-- What `find_object` gives of a blob. -/
theorem object_of_findBlob {ch : Choice} {oid : Oid} {data : List UInt8}
    (h : findBlob m ch oid = some data) : m.object oid = some ⟨.blob, data⟩ := by
  unfold findBlob at h
  split_ifs at h
  cases hobj : m.object oid with
  | none => rw [hobj] at h; cases h
  | some obj =>
      simp only [hobj] at h
      split_ifs at h with hkind
      rw [← Option.some.inj h, ← not_not.1 hkind]

theorem contentOf_pointer {oid : Oid} {data : List UInt8} {info : XetFileInfo}
    (hobj : m.object oid = some ⟨.blob, data⟩) (hinfo : mountPointer m.fromStr data = some info) :
    m.contentOf fileOf oid = some (fileOf info.hash) := by
  unfold Mounted.contentOf
  simp [hobj, hinfo]

theorem contentOf_plain {oid : Oid} {data : List UInt8} (hobj : m.object oid = some ⟨.blob, data⟩)
    (hinfo : mountPointer m.fromStr data = none) : m.contentOf fileOf oid = some data := by
  unfold Mounted.contentOf
  simp [hobj, hinfo]

/-- **`size_of` is the length of the content.** -/
theorem sizeOf_content (hsized : m.Sized fileOf) {oid : Oid} {data : List UInt8} {size : Nat}
    (hobj : m.object oid = some ⟨.blob, data⟩)
    (h : sizeOf m.fromStr (m.showOid oid) data = .ok size) :
    ∃ content, m.contentOf fileOf oid = some content ∧ size = content.length := by
  unfold sizeOf at h
  split_ifs at h with hlooks
  · cases hparse : parsePointer m.fromStr data with
    | error e =>
        rw [hparse] at h
        have hnone : mountPointer m.fromStr data = none := by
          unfold mountPointer
          rw [if_pos hlooks, hparse]
        exact ⟨data, contentOf_plain hobj hnone, (Except.ok.inj h).symm⟩
    | ok info =>
        simp only [hparse] at h
        have hinfo : mountPointer m.fromStr data = some info := by
          unfold mountPointer
          rw [if_pos hlooks, hparse]
        cases hsize : info.fileSize with
        | none => rw [hsize] at h; cases h
        | some n =>
            rw [hsize] at h
            obtain rfl := Except.ok.inj h
            exact ⟨_, contentOf_pointer hobj hinfo, hsized oid data info n hobj hinfo hsize⟩
  · have hnone : mountPointer m.fromStr data = none := by
      unfold mountPointer
      rw [if_neg hlooks]
    exact ⟨data, contentOf_plain hobj hnone, (Except.ok.inj h).symm⟩

end Content

/-! ## Reconstruction -/

section Reconstruct

variable {env : ReconstructEnv} {content : List UInt8}

/-- The terms one after the other: what has been written is the beginning of the file. -/
theorem reconstructTerms_content {all : List CachedTerm}
    (hget : ∀ k term bytes error, all[k]? = some term → env.cacheRead k term = .data bytes error →
      bytes.length = term.unpackedLength →
        bytes = (content.drop (termsLength (all.take k))).take term.unpackedLength)
    {fileSize n i : Nat} {terms : List CachedTerm} {written out : List UInt8}
    (hsize : fileSize = content.length) (hrest : all.drop i = terms)
    (hwritten : written = content.take (termsLength (all.take i)))
    (h : reconstructTerms env.cacheRead fileSize i written terms = (.ok (.wrote n), out)) :
    out = content := by
  induction terms generalizing i written with
  | nil =>
      unfold reconstructTerms at h
      split_ifs at h with hlen
      · cases h
      · obtain ⟨-, rfl⟩ := Prod.mk.inj h
        have hlen := (not_not.1 hlen).trans hsize
        rw [hwritten, List.length_take] at hlen
        rw [hwritten, List.take_of_length_le (by omega)]
  | cons term terms ih =>
      have hterm : all[i]? = some term := by
        have hhead := congrArg List.head? hrest
        rwa [List.head?_drop, List.head?_cons] at hhead
      have htail : all.drop (i + 1) = terms := by
        rw [← List.tail_drop, hrest, List.tail_cons]
      unfold reconstructTerms at h
      cases hread : env.cacheRead i term with
      | malformed text => simp [hread] at h
      | missing => simp [hread] at h
      | data bytes error =>
          simp only [hread] at h
          split_ifs at h with hlen
          · cases h
          · cases error with
            | some text => cases h
            | none =>
                refine ih htail ?_ h
                have htake : all.take (i + 1) = all.take i ++ [term] := by
                  rw [List.take_add_one, hterm]
                  rfl
                have hsum : termsLength (all.take (i + 1)) =
                    termsLength (all.take i) + term.unpackedLength := by
                  rw [htake]
                  simp [termsLength]
                rw [hsum, List.take_add, hwritten,
                  ← hget i term bytes none hterm hread (not_not.1 hlen)]

theorem reconstructHot_content {fileSize : Nat} {bytes : List UInt8} (hgives : env.Gives content)
    (hsize : fileSize = content.length)
    (h : reconstructHot env fileSize = .ok (some bytes)) : bytes = content := by
  unfold reconstructHot at h
  split_ifs at h
  · cases h
  · split at h
    · cases h
    · cases h
    · rename_i terms hmanifest
      split at h
      · cases h
      · split at h
        · cases h
        · cases h
        · rename_i n out hres
          rw [← Option.some.inj (Except.ok.inj h)]
          exact reconstructTerms_content (hgives.hot terms hmanifest) hsize rfl rfl hres

theorem reconstructCold_content {fileSize : Nat} {bytes : List UInt8} (hgives : env.Gives content)
    (hsize : fileSize = content.length)
    (h : reconstructCold env fileSize = .ok bytes) : bytes = content := by
  unfold reconstructCold at h
  split at h
  · cases h
  · split at h
    · cases h
    · split at h
      · cases h
      · rename_i hcold
        rw [← Except.ok.inj h, hgives.cold hcold, hsize, List.take_length]

/-- **What is reconstructed is the file**, from wherever it comes. -/
theorem reconstruct_content {info : XetFileInfo} {fileSize : Nat} {bytes : List UInt8}
    (hgives : env.Gives content) (hfileSize : info.fileSize = some fileSize)
    (hsize : fileSize = content.length)
    (h : reconstructBaleToTempfile env info = .ok bytes) : bytes = content := by
  unfold reconstructBaleToTempfile at h
  simp only [hfileSize] at h
  split_ifs at h
  split at h
  · cases h
  · split at h
    · cases h
    · rename_i hhot
      exact Except.ok.inj h ▸ reconstructHot_content hgives hsize hhot
    · exact reconstructCold_content hgives hsize h

end Reconstruct

/-! ## Answers -/

section Answers

variable (m : Mounted Oid) (fileOf : String → List UInt8)

/-- What a callback may answer; `opened` says which handles have been given out, and for what
    content. -/
inductive Answers (opened : Nat → List UInt8 → Prop) : Request → Reply → Prop where
  | noBuffer (path : Option String) :
      Answers opened (.onPath (.opGetattr false) path) (.failed .efault)
  | notThere (op : PathOp) (path : Option String) (h : ∀ p, path = some p → m.shows p = none) :
      Answers opened (.onPath op path) (.failed .enoent)
  | dirAttr (p : String) (inode : Nat) (oid : Oid) (h : m.shows p = some (.dir oid)) :
      Answers opened (.onPath (.opGetattr true) (some p)) (.attr (dirAttr inode))
  | fileAttr (p : String) (inode : Nat) (content : List UInt8) (h : m.HasContent fileOf p content) :
      Answers opened (.onPath (.opGetattr true) (some p)) (.attr (fileAttr inode content.length))
  | isDir (flags : Option UInt32) (p : String) (oid : Oid) (h : m.shows p = some (.dir oid)) :
      Answers opened (.onPath (.opOpen flags) (some p)) (.failed .eisdir)
  | readOnly (flags : UInt32) (p : String) (oid : Oid) (h : m.shows p = some (.file oid))
      (hflags : flags &&& oAccmode ≠ 0) :
      Answers opened (.onPath (.opOpen (some flags)) (some p)) (.failed .erofs)
  | fileFailed (op : PathOp) (p : String) (oid : Oid) (h : m.shows p = some (.file oid))
      (hop : op ≠ .opReaddir) : Answers opened (.onPath op (some p)) (.failed .eio)
  | opened (flags : UInt32) (p : String) (content : List UInt8) (fh : Nat)
      (h : m.HasContent fileOf p content) (hflags : flags &&& oAccmode = 0) (hfh : 0 < fh) :
      Answers opened (.onPath (.opOpen (some flags)) (some p)) (.opened fh)
  | notDir (p : String) (oid : Oid) (h : m.shows p = some (.file oid)) :
      Answers opened (.onPath .opReaddir (some p)) (.failed .enotdir)
  | listing (p : String) (oid : Oid) (names : List String) (h : m.shows p = some (.dir oid))
      (hnodup : names.Nodup) (hsorted : names.Pairwise (fun a b => a ≤ b))
      (hnames : ∀ name, name ∈ names ↔ '\x00' ∉ name.toList ∧
        view m.ctx m.rootTree (pathComponents p ++ [name]) ≠ none) :
      Answers opened (.onPath .opReaddir (some p)) (.listing ("." :: ".." :: names))
  | noReadBuffer (fh : Option Nat) (size offset : Nat) :
      Answers opened (.opRead false fh size offset) (.failed .efault)
  | badHandle (fh : Option Nat) (size offset : Nat) (h : fh = none ∨ fh = some 0) :
      Answers opened (.opRead true fh size offset) (.failed .ebadf)
  | readFailed (fh size offset : Nat) (hfh : fh ≠ 0) :
      Answers opened (.opRead true (some fh) size offset) (.failed .eio)
  | data (fh size offset : Nat) (content bytes : List UInt8) (hopened : opened fh content)
      (hpart : bytes <+: slice content offset size)
      (hsome : slice content offset size ≠ [] → bytes ≠ [])
      (hwhole : content.length ≤ baleLruBudgetBytes → bytes = slice content offset size) :
      Answers opened (.opRead true (some fh) size offset) (.data bytes)
  | released (fh : Option Nat) : Answers opened (.opRelease fh) .released

/-- A call to open a file with this content was answered with the handle. -/
def OpenedWith (tasks : List (Task Oid)) (fh : Nat) (content : List UInt8) : Prop :=
  ∃ t ∈ tasks, t.phase = .done (.opened fh) ∧ ∃ op p, t.request = .onPath op (some p) ∧
    m.HasContent fileOf p content

/-- A call to release the handle was answered. -/
def Released (tasks : List (Task Oid)) (fh : Nat) : Prop :=
  ∃ t ∈ tasks, t.request = .opRelease (some fh) ∧ t.phase = .done .released

end Answers

/-! ## What a callback knows -/

section Known

variable (m : Mounted Oid) (fileOf : String → List UInt8)

/-- A temporary file has the size that is declared, and is kept only if the cache would not. -/
def HandleData.Declared (data : HandleData) : Prop :=
  ∀ content size, data = .tempfile content size →
    size = content.length ∧ baleLruBudgetBytes < size

/-- An inode stands for a path. -/
def StandsFor (vfs : VfsState Oid) (path : Nat → List String) (inode : Nat) (p : List String) :
    Prop := vfs.Given inode ∧ path inode = p

/-- A node of a path, and what the path shows. -/
def NodeAt (vfs : VfsState Oid) (path : Nat → List String) (node : Node Oid) (p : List String) :
    Prop := StandsFor vfs path node.inode p ∧
  ∃ s, view m.ctx m.rootTree p = some s ∧ node.kind = s.kind

/-- The request is to open a file with this blob, for reading. -/
def OpensBlob (request : Request) (oid : Oid) : Prop :=
  ∃ flags p, request = .onPath (.opOpen (some flags)) (some p) ∧ flags &&& oAccmode = 0 ∧
    m.shows p = some (.file oid)

/-- The request is to open a file with this content, for reading. -/
def OpensContent (request : Request) (content : List UInt8) : Prop :=
  ∃ flags p, request = .onPath (.opOpen (some flags)) (some p) ∧ flags &&& oAccmode = 0 ∧
    m.HasContent fileOf p content

/-- The request is to open a file that the pointer points to. -/
def OpensPointer (request : Request) (info : XetFileInfo) : Prop :=
  OpensContent m fileOf request (fileOf info.hash) ∧
    ∀ size, info.fileSize = some size → size = (fileOf info.hash).length

/-- The request is for the attributes of a file with this blob, and this inode. -/
def AsksSize (vfs : VfsState Oid) (path : Nat → List String) (request : Request) (inode : Nat)
    (oid : Oid) : Prop :=
  ∃ p, request = .onPath (.opGetattr true) (some p) ∧ m.shows p = some (.file oid) ∧
    StandsFor vfs path inode (pathComponents p)

def Known (opened : Nat → List UInt8 → Prop) (vfs : VfsState Oid) (path : Nat → List String)
    (request : Request) : Phase Oid → Prop
  | .begin => True
  | .walk op node rest => op ≠ .opGetattr false ∧ ∃ p before, request = .onPath op (some p) ∧
      pathComponents p = before ++ rest ∧ NodeAt m vfs path node before
  | .sizeLookup inode oid => AsksSize m vfs path request inode oid
  | .sizeObject inode oid => AsksSize m vfs path request inode oid
  | .sizeInsert inode oid size => AsksSize m vfs path request inode oid ∧
      ∃ content, m.contentOf fileOf oid = some content ∧ size = content.length
  | .plainLookup oid => OpensBlob m request oid
  | .loadBlob oid => OpensBlob m request oid
  | .plainInsert oid data => OpensBlob m request oid ∧ m.contentOf fileOf oid = some data
  | .baleLookup info => OpensPointer m fileOf request info
  | .reconstruct info fileSize => OpensPointer m fileOf request info ∧
      info.fileSize = some fileSize
  | .balePut info bytes => OpensPointer m fileOf request info ∧ bytes = fileOf info.hash
  | .claim data => OpensContent m fileOf request data.content ∧ data.Declared
  | .insert data fh => OpensContent m fileOf request data.content ∧ data.Declared ∧ 0 < fh
  | .pread data size offset => ∃ fh, request = .opRead true (some fh) size offset ∧ fh ≠ 0 ∧
      opened fh data.content ∧ data.Declared
  | .list inode => ∃ p oid, request = .onPath .opReaddir (some p) ∧
      m.shows p = some (.dir oid) ∧ StandsFor vfs path inode (pathComponents p)
  | .done reply => Answers m fileOf opened request reply ∧
      ∀ a, reply = .attr a → ∃ op p, request = .onPath op (some p) ∧
        StandsFor vfs path a.stIno (pathComponents p)

/-- The caches hold what is in the repository, and the files of its pointers. -/
structure Caches (s : Shared Oid) : Prop where
  size : ∀ oid size, s.sizeCache oid = some size →
    ∃ content, m.contentOf fileOf oid = some content ∧ size = content.length
  plain : ∀ oid data, s.plainCache oid = some data → m.contentOf fileOf oid = some data
  bale : ∀ hash bytes, s.baleCache.map hash = some bytes → bytes = fileOf hash

end Known

section Grow

variable {m : Mounted Oid} {fileOf : String → List UInt8} {vfs vfs' : VfsState Oid}
  {path path' : Nat → List String} {opened opened' : Nat → List UInt8 → Prop}

theorem StandsFor.grow {inode : Nat} {p : List String} (h : StandsFor vfs path inode p)
    (hgrows : Extends vfs vfs' path path') : StandsFor vfs' path' inode p :=
  ⟨hgrows.given h.1, (hgrows.path inode h.1).trans h.2⟩

theorem AsksSize.grow {request : Request} {inode : Nat} {oid : Oid}
    (h : AsksSize m vfs path request inode oid) (hgrows : Extends vfs vfs' path path') :
    AsksSize m vfs' path' request inode oid := by
  obtain ⟨p, hrequest, hshows, hstands⟩ := h
  exact ⟨p, hrequest, hshows, hstands.grow hgrows⟩

theorem Answers.mono {request : Request} {reply : Reply} (h : Answers m fileOf opened request reply)
    (hopened : ∀ fh content, opened fh content → opened' fh content) :
    Answers m fileOf opened' request reply := by
  cases h with
  | data fh size offset content bytes hfh hpart hsome hwhole =>
      exact .data fh size offset content bytes (hopened fh content hfh) hpart hsome hwhole
  | _ => constructor <;> assumption

/-- **What a callback knows stays true**, whatever others do. -/
theorem Known.grow {request : Request} {phase : Phase Oid}
    (h : Known m fileOf opened vfs path request phase) (hgrows : Extends vfs vfs' path path')
    (hopened : ∀ fh content, opened fh content → opened' fh content) :
    Known m fileOf opened' vfs' path' request phase := by
  cases phase with
  | begin => trivial
  | walk op node rest =>
      obtain ⟨hop, p, before, hrequest, hsplit, hstands, hshown⟩ := h
      exact ⟨hop, p, before, hrequest, hsplit, hstands.grow hgrows, hshown⟩
  | sizeLookup inode oid => exact AsksSize.grow h hgrows
  | sizeObject inode oid => exact AsksSize.grow h hgrows
  | sizeInsert inode oid size => exact ⟨AsksSize.grow h.1 hgrows, h.2⟩
  | plainLookup oid => exact h
  | loadBlob oid => exact h
  | plainInsert oid data => exact h
  | baleLookup info => exact h
  | reconstruct info fileSize => exact h
  | balePut info bytes => exact h
  | claim data => exact h
  | insert data fh => exact h
  | pread data size offset =>
      obtain ⟨fh, hrequest, hfh, hdata, hdeclared⟩ := h
      exact ⟨fh, hrequest, hfh, hopened fh _ hdata, hdeclared⟩
  | list inode =>
      obtain ⟨p, oid, hrequest, hshows, hstands⟩ := h
      exact ⟨p, oid, hrequest, hshows, hstands.grow hgrows⟩
  | done reply =>
      refine ⟨h.1.mono hopened, fun a ha => ?_⟩
      obtain ⟨op, p, hrequest, hstands⟩ := h.2 a ha
      exact ⟨op, p, hrequest, hstands.grow hgrows⟩

end Grow

/-! ## The tree -/

section Tree

variable {ctx : LazyContext Oid} {rootTree : Oid} {st : VfsState Oid} {path : Nat → List String}

/-- **A directory lists the names under which its path shows something**, sorted. -/
theorem readdir_view (hinv : Inv ctx rootTree st path) {parent : Nat} {oid : Oid}
    (hgiven : st.Given parent) (hdir : view ctx rootTree (path parent) = some (.dir oid)) :
    ∃ entries, (readdir ctx st parent).2 = some entries ∧ (entries.map Prod.fst).Nodup ∧
      (entries.map Prod.fst).Pairwise (fun a b => a ≤ b) ∧
      ∀ name, name ∈ entries.map Prod.fst ↔
        view ctx rootTree (path parent ++ [name]) ≠ none := by
  obtain ⟨path', hinv', hgrows, -⟩ := populate_inv hinv parent
  have hdir' : view ctx rootTree (path' parent) = some (.dir oid) := by
    rw [hgrows.path parent hgiven, hdir]
  obtain ⟨d, hd⟩ := Option.ne_none_iff_exists'.1
    (hinv'.core.hasDir parent oid (hgrows.given hgiven) hdir')
  have hentries : ∃ entries, (readdir ctx st parent).2 = some entries := by
    unfold readdir
    simp only [hd, Option.map_some]
    exact ⟨_, rfl⟩
  obtain ⟨entries, hentries⟩ := hentries
  refine ⟨entries, hentries, nodup_readdir hinv hentries, ?_, fun name => ?_⟩
  · unfold readdir at hentries
    simp only [hd, Option.map_some, Option.some.injEq] at hentries
    rw [← hentries, List.pairwise_map]
    exact List.pairwise_insertionSort _ _
  · obtain ⟨path'', hinv'', hgrows', hfound, hnone⟩ := lookupChild_inv hinv parent name
    constructor
    · intro hmem
      obtain ⟨⟨n, node⟩, hentry, rfl⟩ := List.mem_map.1 hmem
      obtain ⟨hnode, hpath⟩ :=
        hfound node ((mem_readdir_iff hinv parent n node).1 ⟨entries, hentries, hentry⟩)
      obtain ⟨s, hs, -⟩ := hinv''.core.nodes node.inode (hinv''.core.given_of_nodes hnode)
      rw [hpath, hgrows'.path parent hgiven] at hs
      rw [hs]
      exact Option.some_ne_none s
    · intro hview
      obtain ⟨node, hnode⟩ := Option.ne_none_iff_exists'.1 (fun h => hview (hnone hgiven h))
      obtain ⟨entries', hentries', hmem⟩ := (mem_readdir_iff hinv parent name node).2 hnode
      obtain rfl := Option.some.inj (hentries.symm.trans hentries')
      exact List.mem_map.2 ⟨(name, node), hmem, rfl⟩

end Tree

/-! ## The caches -/

/-- What is in a map after an insertion has been inserted, or was there. -/
theorem update_cases {κ β : Type} [DecidableEq κ] {f : κ → Option β} {key k : κ} {v w : β}
    (h : Function.update f key (some v) k = some w) : k = key ∧ w = v ∨ f k = some w := by
  by_cases hk : k = key
  · rw [hk, Function.update_self] at h
    exact Or.inl ⟨hk, (Option.some.inj h).symm⟩
  · rw [Function.update_of_ne hk] at h
    exact Or.inr h

theorem map_get (c : BaleLru) (key : String) : (c.get key).2.map = c.map := by
  unfold BaleLru.get
  cases c.map key with
  | none => rfl
  | some v =>
      simp only
      split_ifs <;> rfl

theorem makeRoomFrom_map {size : Nat} {c : BaleLru} {order : List String} {key : String}
    {bytes : List UInt8} (h : (BaleLru.makeRoomFrom size c order).map key = some bytes) :
    c.map key = some bytes := by
  induction order generalizing c with
  | nil => exact h
  | cons victim order ih =>
      unfold BaleLru.makeRoomFrom at h
      split_ifs at h
      · have hold := ih h
        rw [BaleLru.map_remove] at hold
        by_cases hkey : key = victim
        · rw [hkey, Function.update_self] at hold
          cases hold
        · rwa [Function.update_of_ne hkey] at hold
      · exact h

/-- A blob in the cache was there, or has just been put. -/
theorem put_map {c : BaleLru} {key k : String} {blob bytes : List UInt8}
    (h : (c.put key blob).map k = some bytes) :
    k = key ∧ bytes = blob ∨ c.map k = some bytes := by
  unfold BaleLru.put at h
  split_ifs at h
  · exact Or.inr h
  · exact (update_cases h).imp_right makeRoomFrom_map

/-! ## Reads -/

/-- **A read gives the beginning of the slice**: something if there is something, and all of it from
    memory. -/
theorem HandleData.Declared.read {data : HandleData} (hdeclared : data.Declared)
    {os : OsRead data.content} {offset len : Nat} {bytes : List UInt8}
    (h : data.read os offset len = .ok bytes) :
    bytes <+: slice data.content offset len ∧
      (slice data.content offset len ≠ [] → bytes ≠ []) ∧
      (data.content.length ≤ baleLruBudgetBytes → bytes = slice data.content offset len) := by
  have hsame : bytes = slice data.content offset len → bytes <+: slice data.content offset len ∧
      (slice data.content offset len ≠ [] → bytes ≠ []) ∧
      (data.content.length ≤ baleLruBudgetBytes → bytes = slice data.content offset len) :=
    fun heq => ⟨heq ▸ List.prefix_refl _, fun hne => heq ▸ hne, fun _ => heq⟩
  cases data with
  | bytes b =>
      simp only [HandleData.read] at h
      split_ifs at h with hend hover
      · refine hsame ?_
        rw [← Except.ok.inj h]
        exact (slice_eq_nil hend len).symm
      · exact hsame (Except.ok.inj h).symm
  | tempfile content size =>
      obtain ⟨rfl, hlong⟩ := hdeclared content size rfl
      simp only [HandleData.read] at h
      split_ifs at h with hend
      · refine hsame ?_
        rw [← Except.ok.inj h]
        exact (slice_eq_nil hend len).symm
      · have hle := os.le offset (min len (content.length - offset))
        have hpos := os.pos offset (min len (content.length - offset))
        simp only [HandleData.content] at hle hpos
        obtain rfl := Except.ok.inj h
        refine ⟨?_, fun hne hnil => ?_, fun hfit => absurd hlong (Nat.not_lt.2 hfit)⟩
        · simp only [HandleData.content, slice_eq]
          exact List.take_prefix_take_left (by omega)
        · have hlen := List.length_pos_of_ne_nil hne
          rw [length_slice] at hlen
          simp only [HandleData.content] at hlen
          have hzero := congrArg List.length hnil
          rw [List.length_take, List.length_drop, List.length_nil] at hzero
          have := hpos (by omega)
          omega

/-! ## One step -/

section Step

variable (m : Mounted Oid) (fileOf : String → List UInt8)

/-- What holds of the shared state. -/
structure SharedInv (s : Shared Oid) (path : Nat → List String) : Prop where
  vfs : Inv m.ctx m.rootTree s.vfs path
  caches : Caches m fileOf s

/-- What a step of a callback leaves. -/
structure After (opened : Nat → List UInt8 → Prop) (request : Request) (s : Shared Oid)
    (path : Nat → List String) (s' : Shared Oid) (phase' : Phase Oid)
    (path' : Nat → List String) : Prop where
  inv : SharedInv m fileOf s' path'
  grows : Extends s.vfs s'.vfs path path'
  known : Known m fileOf opened s'.vfs path' request phase'

variable {m fileOf} {opened : Nat → List UInt8 → Prop} {request : Request} {s s' : Shared Oid}
  {path : Nat → List String} {phase' : Phase Oid}

/-- A step that leaves the tree and the caches alone. -/
theorem after_same (hinv : SharedInv m fileOf s path) (hvfs : s'.vfs = s.vfs)
    (hcaches : Caches m fileOf s') (hknown : Known m fileOf opened s.vfs path request phase') :
    ∃ path', After m fileOf opened request s path s' phase' path' := by
  refine ⟨path, ⟨?_, hcaches⟩, ?_, ?_⟩
  · rw [hvfs]
    exact hinv.vfs
  · rw [hvfs]
    exact Extends.refl s.vfs path
  · rwa [hvfs]

theorem answers_failed {oid : Oid} (h : OpensBlob m request oid) :
    Known m fileOf opened s.vfs path request (.done (.failed .eio)) := by
  obtain ⟨flags, p, rfl, -, hshows⟩ := h
  exact ⟨.fileFailed _ p oid hshows (by simp), fun a ha => by cases ha⟩

theorem OpensContent.failed {content : List UInt8} (h : OpensContent m fileOf request content) :
    Known m fileOf opened s.vfs path request (.done (.failed .eio)) := by
  obtain ⟨flags, p, hrequest, hflags, oid, hshows, -⟩ := h
  exact answers_failed ⟨flags, p, hrequest, hflags, hshows⟩

theorem OpensBlob.content {oid : Oid} {content : List UInt8} (h : OpensBlob m request oid)
    (hcontent : m.contentOf fileOf oid = some content) : OpensContent m fileOf request content := by
  obtain ⟨flags, p, hrequest, hflags, hshows⟩ := h
  exact ⟨flags, p, hrequest, hflags, oid, hshows, hcontent⟩

theorem AsksSize.answered {inode : Nat} {oid : Oid} {content : List UInt8}
    (h : AsksSize m s.vfs path request inode oid)
    (hcontent : m.contentOf fileOf oid = some content) :
    Known m fileOf opened s.vfs path request (.done (.attr (fileAttr inode content.length))) := by
  obtain ⟨p, rfl, hshows, hstands⟩ := h
  refine ⟨.fileAttr p inode content ⟨oid, hshows, hcontent⟩, fun a ha => ?_⟩
  obtain rfl := Reply.attr.inj ha
  exact ⟨_, p, rfl, hstands⟩

theorem AsksSize.failed {inode : Nat} {oid : Oid} (h : AsksSize m s.vfs path request inode oid) :
    Known m fileOf opened s.vfs path request (.done (.failed .eio)) := by
  obtain ⟨p, rfl, hshows, -⟩ := h
  exact ⟨.fileFailed _ p oid hshows (by simp), fun a ha => by cases ha⟩

/-- What is done with the node at the end of a path. -/
theorem known_arrive {op : PathOp} {node : Node Oid} {p : String} (hop : op ≠ .opGetattr false)
    (hnode : NodeAt m s.vfs path node (pathComponents p)) :
    Known m fileOf opened s.vfs path (.onPath op (some p)) (op.arrive node) := by
  obtain ⟨hstands, shown, hshown, hkind⟩ := hnode
  unfold PathOp.arrive
  cases shown with
  | dir oid =>
      rw [hkind]
      cases op with
      | opGetattr stbuf =>
          obtain rfl : stbuf = true := by
            cases stbuf with
            | false => exact absurd rfl hop
            | true => rfl
          refine ⟨.dirAttr p node.inode oid hshown, fun a ha => ?_⟩
          obtain rfl := Reply.attr.inj ha
          exact ⟨_, p, rfl, hstands⟩
      | opOpen flags => exact ⟨.isDir flags p oid hshown, fun a ha => by cases ha⟩
      | opReaddir => exact ⟨p, oid, rfl, hshown, hstands⟩
  | file oid =>
      rw [hkind]
      cases op with
      | opGetattr stbuf =>
          obtain rfl : stbuf = true := by
            cases stbuf with
            | false => exact absurd rfl hop
            | true => rfl
          exact ⟨p, rfl, hshown, hstands⟩
      | opOpen flags =>
          cases flags with
          | none => exact ⟨.fileFailed _ p oid hshown (by simp), fun a ha => by cases ha⟩
          | some flags =>
              simp only [Shown.kind]
              split_ifs with hflags
              · exact ⟨.readOnly flags p oid hshown hflags, fun a ha => by cases ha⟩
              · exact ⟨flags, p, rfl, not_not.1 hflags, hshown⟩
      | opReaddir => exact ⟨.notDir p oid hshown, fun a ha => by cases ha⟩

/-- The first step of a callback leaves the tree and the caches alone. -/
theorem known_begin (hinv : SharedInv m fileOf s path)
    (hhandles : ∀ fh data, s.handles fh = some data → data.Declared ∧ opened fh data.content) :
    ∃ path', After m fileOf opened request s path (beginStep s request).1
      (beginStep s request).2 path' := by
  cases request with
  | onPath op path₀ =>
      simp only [beginStep]
      split_ifs with hop
      · subst hop
        exact after_same hinv rfl hinv.caches ⟨.noBuffer path₀, fun a ha => by cases ha⟩
      · cases path₀ with
        | none =>
            exact after_same hinv rfl hinv.caches
              ⟨.notThere op none (fun p hp => by cases hp), fun a ha => by cases ha⟩
        | some p =>
            obtain ⟨hgiven, hroot⟩ := hinv.vfs.core.root
            obtain ⟨shown, hshown, hnode⟩ := hinv.vfs.core.nodes rootInode hgiven
            simp only [lookupByInode, hnode]
            refine after_same hinv rfl hinv.caches ⟨hop, p, [], rfl, rfl, ⟨hgiven, hroot⟩, shown, ?_, rfl⟩
            rw [← hroot]
            exact hshown
  | opRead buf fh size offset =>
      unfold beginStep
      cases buf with
      | false =>
          exact after_same hinv rfl hinv.caches ⟨.noReadBuffer fh size offset, fun a ha => by cases ha⟩
      | true =>
          cases fh with
          | none =>
              exact after_same hinv rfl hinv.caches
                ⟨.badHandle none size offset (Or.inl rfl), fun a ha => by cases ha⟩
          | some fh =>
              by_cases hfh : fh = 0
              · subst hfh
                exact after_same hinv rfl hinv.caches
                  ⟨.badHandle _ size offset (Or.inr rfl), fun a ha => by cases ha⟩
              · cases hdata : s.handles fh with
                | none =>
                    simp only [Bool.not_true, Bool.false_eq_true, if_false, if_neg hfh, hdata]
                    exact after_same hinv rfl hinv.caches
                      ⟨.readFailed fh size offset hfh, fun a ha => by cases ha⟩
                | some data =>
                    simp only [Bool.not_true, Bool.false_eq_true, if_false, if_neg hfh, hdata]
                    obtain ⟨hdeclared, hopened⟩ := hhandles fh data hdata
                    exact after_same hinv rfl hinv.caches ⟨fh, rfl, hfh, hopened, hdeclared⟩
  | opRelease fh =>
      have hknown : Known m fileOf opened s.vfs path (.opRelease fh) (.done .released) :=
        ⟨.released fh, fun a ha => by cases ha⟩
      cases fh with
      | none => exact after_same hinv rfl hinv.caches hknown
      | some fh =>
          simp only [beginStep]
          split_ifs
          · exact after_same hinv rfl hinv.caches hknown
          · exact after_same hinv rfl ⟨hinv.caches.size, hinv.caches.plain, hinv.caches.bale⟩ hknown

/-- What a handle in memory is opened with. -/
theorem known_claim {bytes : List UInt8} (h : OpensContent m fileOf request bytes) :
    Known m fileOf opened s.vfs path request (.claim (.bytes bytes)) :=
  ⟨h, fun content size hdata => by cases hdata⟩

variable [DecidableEq Oid] {ch : Choice}

/-- A component of a path is looked up, or the path has come to its end. -/
theorem after_walk {op : PathOp} {node : Node Oid} {rest : List String}
    (hinv : SharedInv m fileOf s path)
    (hknown : Known m fileOf opened s.vfs path request (.walk op node rest))
    (h : phaseStep m ch s (.walk op node rest) = some (s', phase')) :
    ∃ path', After m fileOf opened request s path s' phase' path' := by
  obtain ⟨hop, p, before, rfl, hsplit, hnode⟩ := hknown
  cases rest with
  | nil =>
      rw [List.append_nil] at hsplit
      obtain ⟨rfl, rfl⟩ := Prod.mk.inj (Option.some.inj h)
      exact after_same hinv rfl hinv.caches (known_arrive hop (hsplit ▸ hnode))
  | cons name rest =>
      obtain ⟨⟨hgiven, hpath⟩, -⟩ := hnode
      obtain ⟨path', hinv', hgrows, hfound, hnone⟩ := lookupChild_inv hinv.vfs node.inode name
      have hcaches : ∀ vfs, Caches m fileOf { s with vfs := vfs } := fun vfs =>
        ⟨hinv.caches.size, hinv.caches.plain, hinv.caches.bale⟩
      have hcons : before ++ name :: rest = (before ++ [name]) ++ rest := by simp
      unfold phaseStep at h
      cases hlookup : lookupChild m.ctx s.vfs node.inode name with
      | mk vfs child =>
          rw [hlookup] at hinv' hgrows hfound hnone
          simp only [hlookup] at h
          cases child with
          | none =>
              obtain ⟨rfl, rfl⟩ := Prod.mk.inj (Option.some.inj h)
              refine ⟨path', ⟨hinv', hcaches vfs⟩, hgrows, .notThere op _ (fun q hq => ?_),
                fun a ha => by cases ha⟩
              obtain rfl := Option.some.inj hq
              unfold Mounted.shows
              rw [hsplit, hcons]
              refine view_append_of_none ?_ rest
              rw [← hpath]
              exact hnone hgiven rfl
          | some child =>
              obtain ⟨rfl, rfl⟩ := Prod.mk.inj (Option.some.inj h)
              obtain ⟨hstored, hchild⟩ := hfound child rfl
              have hgiven' := hinv'.core.given_of_nodes hstored
              obtain ⟨shown, hshown, hkind⟩ := hinv'.core.nodes child.inode hgiven'
              have hchild : path' child.inode = before ++ [name] := by
                rw [hchild, hgrows.path node.inode hgiven, hpath]
              refine ⟨path', ⟨hinv', hcaches vfs⟩, hgrows, hop, p, before ++ [name], rfl,
                hsplit.trans hcons, ⟨hgiven', hchild⟩, shown, hchild ▸ hshown, ?_⟩
              rw [hstored] at hkind
              exact congrArg Node.kind (Option.some.inj hkind)

/-- The directory at the end of a path is listed. -/
theorem after_list {inode : Nat} (hinv : SharedInv m fileOf s path)
    (hknown : Known m fileOf opened s.vfs path request (.list inode))
    (h : phaseStep m ch s (.list inode) = some (s', phase')) :
    ∃ path', After m fileOf opened request s path s' phase' path' := by
  obtain ⟨p, oid, rfl, hshows, hgiven, hpath⟩ := hknown
  have hdir : view m.ctx m.rootTree (path inode) = some (.dir oid) := by
    rw [hpath]
    exact hshows
  obtain ⟨entries, hentries, hnodup, hsorted, hnames⟩ := readdir_view hinv.vfs hgiven hdir
  obtain ⟨path', hinv', hgrows, -⟩ := populate_inv hinv.vfs inode
  unfold phaseStep at h
  cases hread : readdir m.ctx s.vfs inode with
  | mk vfs children =>
      have hvfs : vfs = populateIfLazy m.ctx s.vfs inode := (congrArg Prod.fst hread).symm
      rw [hread] at hentries
      obtain rfl := hentries
      simp only [hread, Option.some.injEq, Prod.mk.injEq] at h
      obtain ⟨rfl, rfl⟩ := h
      refine ⟨path', ⟨hvfs ▸ hinv', hinv.caches.size, hinv.caches.plain, hinv.caches.bale⟩,
        hvfs ▸ hgrows, .listing p oid _ hshows (hnodup.filter _) (hsorted.filter _) (fun name => ?_),
        fun a ha => by cases ha⟩
      rw [List.mem_filter, hnames, hpath, decide_eq_true_eq, and_comm]

/-- `size_of`. -/
theorem after_sizeLookup {inode : Nat} {oid : Oid} (hinv : SharedInv m fileOf s path)
    (hknown : Known m fileOf opened s.vfs path request (.sizeLookup inode oid))
    (h : phaseStep m ch s (.sizeLookup inode oid) = some (s', phase')) :
    ∃ path', After m fileOf opened request s path s' phase' path' := by
  unfold phaseStep at h
  cases hsize : s.sizeCache oid with
  | none =>
      simp only [hsize, Option.some.injEq, Prod.mk.injEq] at h
      obtain ⟨rfl, rfl⟩ := h
      exact after_same hinv rfl hinv.caches hknown
  | some size =>
      simp only [hsize, Option.some.injEq, Prod.mk.injEq] at h
      obtain ⟨rfl, rfl⟩ := h
      obtain ⟨content, hcontent, rfl⟩ := hinv.caches.size oid size hsize
      exact after_same hinv rfl hinv.caches (AsksSize.answered hknown hcontent)

theorem after_sizeObject (hsized : m.Sized fileOf) {inode : Nat} {oid : Oid}
    (hinv : SharedInv m fileOf s path)
    (hknown : Known m fileOf opened s.vfs path request (.sizeObject inode oid))
    (h : phaseStep m ch s (.sizeObject inode oid) = some (s', phase')) :
    ∃ path', After m fileOf opened request s path s' phase' path' := by
  unfold phaseStep at h
  cases hblob : findBlob m ch oid with
  | none =>
      simp only [hblob, Option.some.injEq, Prod.mk.injEq] at h
      obtain ⟨rfl, rfl⟩ := h
      exact after_same hinv rfl hinv.caches (AsksSize.failed hknown)
  | some data =>
      simp only [hblob] at h
      cases hsize : sizeOf m.fromStr (m.showOid oid) data with
      | error text =>
          simp only [hsize, Option.some.injEq, Prod.mk.injEq] at h
          obtain ⟨rfl, rfl⟩ := h
          exact after_same hinv rfl hinv.caches (AsksSize.failed hknown)
      | ok size =>
          simp only [hsize, Option.some.injEq, Prod.mk.injEq] at h
          obtain ⟨rfl, rfl⟩ := h
          exact after_same hinv rfl hinv.caches
            ⟨hknown, sizeOf_content hsized (object_of_findBlob hblob) hsize⟩

theorem after_sizeInsert {inode size : Nat} {oid : Oid} (hinv : SharedInv m fileOf s path)
    (hknown : Known m fileOf opened s.vfs path request (.sizeInsert inode oid size))
    (h : phaseStep m ch s (.sizeInsert inode oid size) = some (s', phase')) :
    ∃ path', After m fileOf opened request s path s' phase' path' := by
  obtain ⟨hasks, content, hcontent, rfl⟩ := hknown
  obtain ⟨rfl, rfl⟩ := Prod.mk.inj (Option.some.inj h)
  refine after_same hinv rfl ⟨fun o size hcached => ?_, hinv.caches.plain, hinv.caches.bale⟩
    (hasks.answered hcontent)
  rcases update_cases hcached with ⟨rfl, rfl⟩ | hold
  · exact ⟨content, hcontent, rfl⟩
  · exact hinv.caches.size o size hold

/-- `materialize`, up to the pointer. -/
theorem after_plainLookup {oid : Oid} (hinv : SharedInv m fileOf s path)
    (hknown : Known m fileOf opened s.vfs path request (.plainLookup oid))
    (h : phaseStep m ch s (.plainLookup oid) = some (s', phase')) :
    ∃ path', After m fileOf opened request s path s' phase' path' := by
  unfold phaseStep at h
  cases hplain : s.plainCache oid with
  | none =>
      simp only [hplain, Option.some.injEq, Prod.mk.injEq] at h
      obtain ⟨rfl, rfl⟩ := h
      exact after_same hinv rfl hinv.caches hknown
  | some data =>
      simp only [hplain, Option.some.injEq, Prod.mk.injEq] at h
      obtain ⟨rfl, rfl⟩ := h
      exact after_same hinv rfl hinv.caches
        (known_claim (OpensBlob.content hknown (hinv.caches.plain oid data hplain)))

theorem after_loadBlob (hsized : m.Sized fileOf) {oid : Oid} (hinv : SharedInv m fileOf s path)
    (hknown : Known m fileOf opened s.vfs path request (.loadBlob oid))
    (h : phaseStep m ch s (.loadBlob oid) = some (s', phase')) :
    ∃ path', After m fileOf opened request s path s' phase' path' := by
  unfold phaseStep at h
  cases hblob : findBlob m ch oid with
  | none =>
      simp only [hblob, Option.some.injEq, Prod.mk.injEq] at h
      obtain ⟨rfl, rfl⟩ := h
      exact after_same hinv rfl hinv.caches (answers_failed hknown)
  | some data =>
      have hobj := object_of_findBlob hblob
      simp only [hblob] at h
      cases hinfo : mountPointer m.fromStr data with
      | some info =>
          simp only [hinfo, Option.some.injEq, Prod.mk.injEq] at h
          obtain ⟨rfl, rfl⟩ := h
          exact after_same hinv rfl hinv.caches
            ⟨OpensBlob.content hknown (contentOf_pointer hobj hinfo),
              fun size => hsized oid data info size hobj hinfo⟩
      | none =>
          simp only [hinfo] at h
          split_ifs at h
          · obtain ⟨rfl, rfl⟩ := Prod.mk.inj (Option.some.inj h)
            exact after_same hinv rfl hinv.caches (answers_failed hknown)
          · obtain ⟨rfl, rfl⟩ := Prod.mk.inj (Option.some.inj h)
            exact after_same hinv rfl hinv.caches ⟨hknown, contentOf_plain hobj hinfo⟩

theorem after_plainInsert {oid : Oid} {data : List UInt8} (hinv : SharedInv m fileOf s path)
    (hknown : Known m fileOf opened s.vfs path request (.plainInsert oid data))
    (h : phaseStep m ch s (.plainInsert oid data) = some (s', phase')) :
    ∃ path', After m fileOf opened request s path s' phase' path' := by
  obtain ⟨hopens, hcontent⟩ := hknown
  obtain ⟨rfl, rfl⟩ := Prod.mk.inj (Option.some.inj h)
  refine after_same hinv rfl ⟨hinv.caches.size, fun o data' hcached => ?_, hinv.caches.bale⟩
    (known_claim (hopens.content hcontent))
  rcases update_cases hcached with ⟨rfl, rfl⟩ | hold
  · exact hcontent
  · exact hinv.caches.plain o data' hold

/-- `materialize`, from the pointer on. -/
theorem after_baleLookup {info : XetFileInfo} (hinv : SharedInv m fileOf s path)
    (hknown : Known m fileOf opened s.vfs path request (.baleLookup info))
    (h : phaseStep m ch s (.baleLookup info) = some (s', phase')) :
    ∃ path', After m fileOf opened request s path s' phase' path' := by
  have hmap := map_get s.baleCache info.hash
  have hfst := BaleLru.get_fst s.baleCache info.hash
  unfold phaseStep at h
  cases hget : s.baleCache.get info.hash with
  | mk found lru =>
      rw [hget] at hmap hfst
      have hcaches : Caches m fileOf { s with baleCache := lru } :=
        ⟨hinv.caches.size, hinv.caches.plain, fun hash bytes hcached =>
          hinv.caches.bale hash bytes (hmap ▸ hcached)⟩
      simp only [hget] at h
      cases found with
      | some bytes =>
          obtain ⟨rfl, rfl⟩ := Prod.mk.inj (Option.some.inj h)
          obtain rfl := hinv.caches.bale info.hash bytes hfst.symm
          exact after_same hinv rfl hcaches (known_claim hknown.1)
      | none =>
          cases hsize : info.fileSize with
          | none =>
              simp only [hsize, Option.some.injEq, Prod.mk.injEq] at h
              obtain ⟨rfl, rfl⟩ := h
              exact after_same hinv rfl hcaches hknown.1.failed
          | some fileSize =>
              simp only [hsize, Option.some.injEq, Prod.mk.injEq] at h
              obtain ⟨rfl, rfl⟩ := h
              exact after_same hinv rfl hcaches ⟨hknown, hsize⟩

theorem after_reconstruct {info : XetFileInfo} {fileSize : Nat}
    (hinv : SharedInv m fileOf s path) (hgives : ch.env.Gives (fileOf info.hash))
    (hknown : Known m fileOf opened s.vfs path request (.reconstruct info fileSize))
    (h : phaseStep m ch s (.reconstruct info fileSize) = some (s', phase')) :
    ∃ path', After m fileOf opened request s path s' phase' path' := by
  obtain ⟨⟨hopens, hsize⟩, hfileSize⟩ := hknown
  have hlen := hsize fileSize hfileSize
  unfold phaseStep at h
  cases hres : reconstructBaleToTempfile ch.env info with
  | error text =>
      simp only [hres, Option.some.injEq, Prod.mk.injEq] at h
      obtain ⟨rfl, rfl⟩ := h
      exact after_same hinv rfl hinv.caches hopens.failed
  | ok content =>
      have hcontent := reconstruct_content hgives hfileSize hlen hres
      simp only [hres] at h
      cases hread : ch.env.readBack with
      | some text =>
          simp only [hread, Option.some.injEq, Prod.mk.injEq] at h
          obtain ⟨rfl, rfl⟩ := h
          exact after_same hinv rfl hinv.caches hopens.failed
      | none =>
          simp only [hread] at h
          split_ifs at h with hfit
          · obtain ⟨rfl, rfl⟩ := Prod.mk.inj (Option.some.inj h)
            exact after_same hinv rfl hinv.caches ⟨⟨hopens, hsize⟩, hcontent⟩
          · obtain ⟨rfl, rfl⟩ := Prod.mk.inj (Option.some.inj h)
            refine after_same hinv rfl hinv.caches ⟨hcontent ▸ hopens, fun content' size hdata => ?_⟩
            obtain ⟨rfl, rfl⟩ := HandleData.tempfile.inj hdata
            exact ⟨hlen.trans (congrArg List.length hcontent.symm), Nat.lt_of_not_le hfit⟩

theorem after_balePut {info : XetFileInfo} {bytes : List UInt8} (hinv : SharedInv m fileOf s path)
    (hknown : Known m fileOf opened s.vfs path request (.balePut info bytes))
    (h : phaseStep m ch s (.balePut info bytes) = some (s', phase')) :
    ∃ path', After m fileOf opened request s path s' phase' path' := by
  obtain ⟨⟨hopens, -⟩, rfl⟩ := hknown
  obtain ⟨rfl, rfl⟩ := Prod.mk.inj (Option.some.inj h)
  refine after_same hinv rfl ⟨hinv.caches.size, hinv.caches.plain, fun hash bytes hcached => ?_⟩
    (known_claim hopens)
  rcases put_map hcached with ⟨rfl, rfl⟩ | hold
  · rfl
  · exact hinv.caches.bale hash bytes hold

/-- `pread`, once the handle has been found. -/
theorem after_pread {data : HandleData} {size offset : Nat} (hinv : SharedInv m fileOf s path)
    (hknown : Known m fileOf opened s.vfs path request (.pread data size offset))
    (h : phaseStep m ch s (.pread data size offset) = some (s', phase')) :
    ∃ path', After m fileOf opened request s path s' phase' path' := by
  obtain ⟨fh, rfl, hfh, hopened, hdeclared⟩ := hknown
  have hread : ∀ bytes, data.read (ch.os data.content) offset size = .ok bytes →
      Known m fileOf opened s.vfs path (.opRead true (some fh) size offset) (.done (.data bytes)) := by
    intro bytes hbytes
    obtain ⟨hpart, hsome, hwhole⟩ := hdeclared.read hbytes
    exact ⟨.data fh size offset data.content bytes hopened hpart hsome hwhole,
      fun a ha => by cases ha⟩
  unfold phaseStep at h
  simp only at h
  split at h
  · obtain ⟨rfl, rfl⟩ := Prod.mk.inj (Option.some.inj h)
    exact after_same hinv rfl hinv.caches
      ⟨.readFailed fh size offset hfh, fun a ha => by cases ha⟩
  · split at h
    · cases h
    · rename_i bytes hbytes
      obtain ⟨rfl, rfl⟩ := Prod.mk.inj (Option.some.inj h)
      exact after_same hinv rfl hinv.caches (hread bytes hbytes)

theorem after_claim {data : HandleData} (hinv : SharedInv m fileOf s path)
    (hbound : s.nextHandle + 1 < usizeBound)
    (hknown : Known m fileOf opened s.vfs path request (.claim data))
    (h : phaseStep m ch s (.claim data) = some (s', phase')) :
    ∃ path', After m fileOf opened request s path s' phase' path' := by
  obtain ⟨rfl, rfl⟩ := Prod.mk.inj (Option.some.inj h)
  refine after_same hinv rfl ⟨hinv.caches.size, hinv.caches.plain, hinv.caches.bale⟩
    ⟨hknown.1, hknown.2, ?_⟩
  rw [Nat.mod_eq_of_lt hbound]
  exact Nat.succ_pos _

theorem after_insert {data : HandleData} {fh : Nat} (hinv : SharedInv m fileOf s path)
    (hknown : Known m fileOf opened s.vfs path request (.insert data fh))
    (h : phaseStep m ch s (.insert data fh) = some (s', phase')) :
    ∃ path', After m fileOf opened request s path s' phase' path' := by
  obtain ⟨⟨flags, p, rfl, hflags, hcontent⟩, -, hfh⟩ := hknown
  obtain ⟨rfl, rfl⟩ := Prod.mk.inj (Option.some.inj h)
  exact after_same hinv rfl ⟨hinv.caches.size, hinv.caches.plain, hinv.caches.bale⟩
    ⟨.opened flags p _ fh hcontent hflags hfh, fun a ha => by cases ha⟩

theorem step_eq {phase : Phase Oid} (h : phase ≠ .begin) :
    Task.step m ch s ⟨request, phase⟩ = phaseStep m ch s phase := by
  cases phase with
  | begin => exact absurd rfl h
  | _ => rfl

/-- **One step of a callback**: what it knows afterwards, in a tree that has grown. -/
theorem after_task (hsized : m.Sized fileOf) {t : Task Oid} (hinv : SharedInv m fileOf s path)
    (hhandles : ∀ fh data, s.handles fh = some data → data.Declared ∧ opened fh data.content)
    (hbound : s.nextHandle + 1 < usizeBound)
    (hgives : ∀ info fileSize, t.phase = .reconstruct info fileSize →
      ch.env.Gives (fileOf info.hash))
    (hknown : Known m fileOf opened s.vfs path t.request t.phase)
    (h : t.step m ch s = some (s', phase')) :
    ∃ path', After m fileOf opened t.request s path s' phase' path' := by
  obtain ⟨request, phase⟩ := t
  by_cases hbegin : phase = .begin
  · subst hbegin
    obtain ⟨rfl, rfl⟩ := Prod.mk.inj (Option.some.inj h)
    exact known_begin hinv hhandles
  · rw [step_eq hbegin] at h
    cases phase with
    | begin => exact absurd rfl hbegin
    | walk op node rest => exact after_walk hinv hknown h
    | sizeLookup inode oid => exact after_sizeLookup hinv hknown h
    | sizeObject inode oid => exact after_sizeObject hsized hinv hknown h
    | sizeInsert inode oid size => exact after_sizeInsert hinv hknown h
    | plainLookup oid => exact after_plainLookup hinv hknown h
    | loadBlob oid => exact after_loadBlob hsized hinv hknown h
    | plainInsert oid data => exact after_plainInsert hinv hknown h
    | baleLookup info => exact after_baleLookup hinv hknown h
    | reconstruct info fileSize =>
        exact after_reconstruct hinv (hgives info fileSize rfl) hknown h
    | balePut info bytes => exact after_balePut hinv hknown h
    | claim data => exact after_claim hinv hbound hknown h
    | insert data fh => exact after_insert hinv hknown h
    | pread data size offset => exact after_pread hinv hknown h
    | list inode => exact after_list hinv hknown h
    | done reply => cases h

end Step

/-! ## Handles -/

/-- The handle that a callback has claimed, or answered. -/
def Phase.holds : Phase Oid → Option Nat
  | .insert _ fh => some fh
  | .done (.opened fh) => some fh
  | _ => none

/-- What a step does to the handles. -/
inductive HandleStep (s s' : Shared Oid) (phase' : Phase Oid) : Task Oid → Prop where
  | same (t : Task Oid) (hhandles : s'.handles = s.handles) (hnext : s'.nextHandle = s.nextHandle)
      (hholds : phase'.holds = none) : HandleStep s s' phase' t
  | claim (request : Request) (data : HandleData) (hhandles : s'.handles = s.handles)
      (hnext : s'.nextHandle = (s.nextHandle + 1) % usizeBound)
      (hphase : phase' = .insert data s'.nextHandle) :
      HandleStep s s' phase' ⟨request, .claim data⟩
  | insert (request : Request) (data : HandleData) (fh : Nat)
      (hhandles : s'.handles = Function.update s.handles fh (some data))
      (hnext : s'.nextHandle = s.nextHandle) (hphase : phase' = .done (.opened fh)) :
      HandleStep s s' phase' ⟨request, .insert data fh⟩
  | release (fh : Nat) (hhandles : s'.handles = Function.update s.handles fh none)
      (hnext : s'.nextHandle = s.nextHandle) (hphase : phase' = .done .released) :
      HandleStep s s' phase' ⟨.opRelease (some fh), .begin⟩

section Handles

variable {m : Mounted Oid} {s s' : Shared Oid} {phase' : Phase Oid}

theorem arrive_holds (op : PathOp) (node : Node Oid) : (op.arrive node).holds = none := by
  unfold PathOp.arrive
  split
  case h_5 =>
    split_ifs
    · rfl
    · rfl
  all_goals rfl

theorem begin_handles (request : Request) (s : Shared Oid) :
    HandleStep s (beginStep s request).1 (beginStep s request).2 ⟨request, .begin⟩ := by
  cases request with
  | onPath op path =>
      simp only [beginStep]
      split_ifs
      · exact .same _ rfl rfl rfl
      · cases path with
        | none => exact .same _ rfl rfl rfl
        | some p =>
            simp only
            split
            · exact .same _ rfl rfl rfl
            · exact .same _ rfl rfl rfl
  | opRead buf fh size offset =>
      simp only [beginStep]
      split_ifs
      · exact .same _ rfl rfl rfl
      · cases fh with
        | none => exact .same _ rfl rfl rfl
        | some fh =>
            simp only
            split_ifs
            · exact .same _ rfl rfl rfl
            · split
              · exact .same _ rfl rfl rfl
              · exact .same _ rfl rfl rfl
  | opRelease fh =>
      cases fh with
      | none => exact .same _ rfl rfl rfl
      | some fh =>
          simp only [beginStep]
          split_ifs
          · exact .same _ rfl rfl rfl
          · exact .release fh rfl rfl rfl

variable [DecidableEq Oid] {ch : Choice}

theorem task_handles {t : Task Oid} (h : t.step m ch s = some (s', phase')) :
    HandleStep s s' phase' t := by
  obtain ⟨request, phase⟩ := t
  cases phase with
  | begin =>
      obtain ⟨rfl, rfl⟩ := Prod.mk.inj (Option.some.inj h)
      exact begin_handles request s
  | claim data =>
      obtain ⟨rfl, rfl⟩ := Prod.mk.inj (Option.some.inj h)
      exact .claim request data rfl rfl rfl
  | insert data fh =>
      obtain ⟨rfl, rfl⟩ := Prod.mk.inj (Option.some.inj h)
      exact .insert request data fh rfl rfl rfl
  | walk op node rest =>
      cases rest with
      | nil =>
          obtain ⟨rfl, rfl⟩ := Prod.mk.inj (Option.some.inj h)
          exact .same _ rfl rfl (arrive_holds op node)
      | cons name rest =>
          simp only [Task.step, phaseStep] at h
          split at h <;> obtain ⟨rfl, rfl⟩ := Prod.mk.inj (Option.some.inj h) <;>
            exact .same _ rfl rfl rfl
  | done reply => cases h
  | _ =>
      simp only [Task.step, phaseStep] at h
      repeat' split at h
      all_goals first
        | (obtain ⟨rfl, rfl⟩ := Prod.mk.inj (Option.some.inj h)
           exact .same _ rfl rfl rfl)
        | cases h

end Handles

/-! ## Sessions -/

/-- Two callbacks hold different handles. -/
def Task.Apart (t t' : Task Oid) : Prop :=
  ∀ fh, t.phase.holds = some fh → t'.phase.holds ≠ some fh

theorem Task.Apart.symm {t t' : Task Oid} (h : t.Apart t') : t'.Apart t :=
  fun fh hfh hfh' => h fh hfh' hfh

section Invariant

variable (m : Mounted Oid) (fileOf : String → List UInt8)

structure SessionInv (s : Session Oid) (path : Nat → List String) : Prop where
  shared : SharedInv m fileOf s.shared path
  handles : ∀ fh data, s.shared.handles fh = some data →
    data.Declared ∧ OpenedWith m fileOf s.tasks fh data.content
  known : ∀ t ∈ s.tasks,
    Known m fileOf (OpenedWith m fileOf s.tasks) s.shared.vfs path t.request t.phase
  held : ∀ t ∈ s.tasks, ∀ fh, t.phase.holds = some fh → fh ≤ s.shared.nextHandle
  apart : Tasks.Apart Task.Apart s.tasks
  kept : ∀ t ∈ s.tasks, ∀ fh, t.phase = .done (.opened fh) →
    s.shared.handles fh ≠ none ∨ Released s.tasks fh

end Invariant

section Steps

variable {m : Mounted Oid} {fileOf : String → List UInt8} {tasks tasks' : List (Task Oid)}

/-- What has been answered stays answered. -/
def Answered (tasks tasks' : List (Task Oid)) : Prop :=
  ∀ t ∈ tasks, ∀ reply, t.phase = .done reply → t ∈ tasks'

theorem Answered.openedWith (h : Answered tasks tasks') {fh : Nat} {content : List UInt8}
    (hopened : OpenedWith m fileOf tasks fh content) : OpenedWith m fileOf tasks' fh content := by
  obtain ⟨t, ht, hphase, hrest⟩ := hopened
  exact ⟨t, h t ht _ hphase, hphase, hrest⟩

theorem Answered.released (h : Answered tasks tasks') {fh : Nat} (hreleased : Released tasks fh) :
    Released tasks' fh := by
  obtain ⟨t, ht, hrequest, hphase⟩ := hreleased
  exact ⟨t, h t ht _ hphase, hrequest, hphase⟩

variable {s : Session Oid} {path : Nat → List String}

/-- A callback begins. -/
theorem inv_ask (hinv : SessionInv m fileOf s path) (request : Request) :
    SessionInv m fileOf { s with tasks := s.tasks ++ [⟨request, .begin⟩] } path := by
  have hanswered : Answered s.tasks (s.tasks ++ [⟨request, .begin⟩]) :=
    fun t ht reply _ => List.mem_append_left _ ht
  have hcases : ∀ t, t ∈ s.tasks ++ [⟨request, .begin⟩] → t ∈ s.tasks ∨ t = ⟨request, .begin⟩ :=
    fun t ht => (List.mem_append.1 ht).imp_right List.mem_singleton.1
  refine ⟨hinv.shared, fun fh data hdata => ?_, fun t ht => ?_, fun t ht fh hfh => ?_, ?_,
    fun t ht fh hfh => ?_⟩
  · exact (hinv.handles fh data hdata).imp_right hanswered.openedWith
  · rcases hcases t ht with ht | rfl
    · exact (hinv.known t ht).grow (Extends.refl _ _) (fun _ _ h => hanswered.openedWith h)
    · trivial
  · rcases hcases t ht with ht | rfl
    · exact hinv.held t ht fh hfh
    · cases hfh
  · exact hinv.apart.concat (fun _ _ h => h.symm) (fun a _ fh hfh => by cases hfh)
  · rcases hcases t ht with ht | rfl
    · exact (hinv.kept t ht fh hfh).imp_right hanswered.released
    · cases hfh

variable [DecidableEq Oid] {ch : Choice} {shared : Shared Oid} {phase : Phase Oid} {k : Nat}
  {t : Task Oid}

theorem answered_set (ht : s.tasks[k]? = some t)
    (hstep : t.step m ch s.shared = some (shared, phase)) :
    Answered s.tasks (s.tasks.set k ⟨t.request, phase⟩) := by
  intro u hu reply hreply
  obtain ⟨j, hj⟩ := List.mem_iff_getElem?.1 hu
  refine Tasks.mem_set_of_ne hj (fun hjk => ?_)
  rw [hjk, ht] at hj
  obtain rfl := Option.some.inj hj
  unfold Task.step at hstep
  rw [hreply] at hstep
  cases hstep

omit [DecidableEq Oid] in
/-- **A handle that is new is greater than all that are held.** -/
theorem held_step (hinv : SessionInv m fileOf s path) (ht : s.tasks[k]? = some t)
    (hbound : s.shared.nextHandle + 1 < usizeBound) (heff : HandleStep s.shared shared phase t) :
    s.shared.nextHandle ≤ shared.nextHandle ∧
      (∀ fh, phase.holds = some fh → fh ≤ shared.nextHandle) ∧
      ∀ j u, j ≠ k → s.tasks[j]? = some u → Task.Apart ⟨t.request, phase⟩ u := by
  have hmem := List.mem_of_getElem? ht
  cases heff with
  | same t hhandles hnext hholds =>
      refine ⟨hnext ▸ Nat.le_refl _, fun fh hfh => ?_, fun j u _ _ fh hfh => ?_⟩
      · rw [hholds] at hfh
        cases hfh
      · have hnone : phase.holds = some fh := hfh
        rw [hholds] at hnone
        cases hnone
  | claim request data hhandles hnext hphase =>
      rw [Nat.mod_eq_of_lt hbound] at hnext
      subst hphase
      refine ⟨by omega, fun fh hfh => ?_, fun j u _ hu fh hfh hfh' => ?_⟩
      · exact (Option.some.inj hfh) ▸ Nat.le_refl _
      · have hle := hinv.held u (List.mem_of_getElem? hu) fh hfh'
        have hnew := Option.some.inj hfh
        omega
  | insert request data fh₀ hhandles hnext hphase =>
      subst hphase
      refine ⟨hnext ▸ Nat.le_refl _, fun fh hfh => ?_, fun j u hj hu fh hfh => ?_⟩
      · rw [hnext]
        exact hinv.held _ hmem fh hfh
      · exact hinv.apart k j _ u (Ne.symm hj) ht hu fh hfh
  | release fh₀ hhandles hnext hphase =>
      subst hphase
      exact ⟨hnext ▸ Nat.le_refl _, fun fh hfh => (by cases hfh),
        fun j u _ _ fh hfh => (by cases hfh)⟩

/-- **What is in the table was answered by an open**, and what is no longer there was released. -/
theorem handles_step (hinv : SessionInv m fileOf s path) (ht : s.tasks[k]? = some t)
    (hstep : t.step m ch s.shared = some (shared, phase)) :
    (∀ fh data, shared.handles fh = some data → data.Declared ∧
      OpenedWith m fileOf (s.tasks.set k ⟨t.request, phase⟩) fh data.content) ∧
    ∀ u ∈ s.tasks.set k ⟨t.request, phase⟩, ∀ fh, u.phase = .done (.opened fh) →
      shared.handles fh ≠ none ∨ Released (s.tasks.set k ⟨t.request, phase⟩) fh := by
  have hmem := List.mem_of_getElem? ht
  have hanswered := answered_set ht hstep
  have hself : (⟨t.request, phase⟩ : Task Oid) ∈ s.tasks.set k ⟨t.request, phase⟩ :=
    List.mem_of_getElem? (List.getElem?_set_self (List.getElem?_eq_some_iff.1 ht).1)
  have hold : ∀ fh data, s.shared.handles fh = some data → data.Declared ∧
      OpenedWith m fileOf (s.tasks.set k ⟨t.request, phase⟩) fh data.content :=
    fun fh data hdata => (hinv.handles fh data hdata).imp_right hanswered.openedWith
  have hkept : ∀ u, u ∈ s.tasks → ∀ fh, u.phase = .done (.opened fh) →
      s.shared.handles fh ≠ none ∨ Released (s.tasks.set k ⟨t.request, phase⟩) fh :=
    fun u hu fh hfh => (hinv.kept u hu fh hfh).imp_right hanswered.released
  have hcases : ∀ u, u ∈ s.tasks.set k ⟨t.request, phase⟩ → u = ⟨t.request, phase⟩ ∨ u ∈ s.tasks :=
    fun u hu => (Tasks.mem_set_cases hu).imp_right (fun ⟨j, _, hj⟩ => List.mem_of_getElem? hj)
  have hsame : shared.handles = s.shared.handles → (∀ fh, phase ≠ .done (.opened fh)) →
      (∀ fh data, shared.handles fh = some data → data.Declared ∧
        OpenedWith m fileOf (s.tasks.set k ⟨t.request, phase⟩) fh data.content) ∧
      ∀ u ∈ s.tasks.set k ⟨t.request, phase⟩, ∀ fh, u.phase = .done (.opened fh) →
        shared.handles fh ≠ none ∨ Released (s.tasks.set k ⟨t.request, phase⟩) fh := by
    intro hhandles hphase
    rw [hhandles]
    refine ⟨hold, fun u hu fh hfh => ?_⟩
    rcases hcases u hu with rfl | hu
    · exact absurd hfh (hphase fh)
    · exact hkept u hu fh hfh
  have hknown := hinv.known t hmem
  cases task_handles hstep with
  | same t hhandles hnext hholds =>
      refine hsame hhandles (fun fh hphase => ?_)
      rw [hphase] at hholds
      cases hholds
  | claim request data hhandles hnext hphase =>
      refine hsame hhandles (fun fh hopened => ?_)
      rw [hphase] at hopened
      cases hopened
  | insert request data fh₀ hhandles hnext hphase =>
      obtain ⟨⟨flags, p, hrequest, -, hcontent⟩, hdeclared, -⟩ := hknown
      rw [hhandles]
      refine ⟨fun fh data' hdata => ?_, fun u hu fh hfh => ?_⟩
      · rcases update_cases hdata with ⟨rfl, rfl⟩ | hdata
        · exact ⟨hdeclared, _, hself, hphase, _, p, hrequest, hcontent⟩
        · exact hold fh data' hdata
      · by_cases hne : fh = fh₀
        · subst hne
          rw [Function.update_self]
          exact Or.inl (Option.some_ne_none data)
        · rw [Function.update_of_ne hne]
          rcases hcases u hu with rfl | hu
          · rw [hphase] at hfh
            cases hfh
            exact absurd rfl hne
          · exact hkept u hu fh hfh
  | release fh₀ hhandles hnext hphase =>
      rw [hhandles]
      refine ⟨fun fh data hdata => ?_, fun u hu fh hfh => ?_⟩
      · by_cases hne : fh = fh₀
        · rw [hne, Function.update_self] at hdata
          cases hdata
        · rw [Function.update_of_ne hne] at hdata
          exact hold fh data hdata
      · by_cases hne : fh = fh₀
        · exact Or.inr ⟨_, hself, congrArg (fun fh => Request.opRelease (some fh)) hne.symm, hphase⟩
        · rw [Function.update_of_ne hne]
          rcases hcases u hu with rfl | hu
          · rw [hphase] at hfh
            cases hfh
          · exact hkept u hu fh hfh

/-- What is reconstructed in this step is given by the chunk cache and the server. -/
def GivesFiles (fileOf : String → List UInt8) (s : Session Oid) : Act → Prop
  | .ask _ => True
  | .step k ch => ∀ t info fileSize, s.tasks[k]? = some t → t.phase = .reconstruct info fileSize →
      ch.env.Gives (fileOf info.hash)

/-- **Every step keeps the invariant.** -/
theorem inv_sessionStep (hsized : m.Sized fileOf) {s s' : Session Oid} {a : Act}
    (hinv : ∃ path, SessionInv m fileOf s path)
    (hok : GivesFiles fileOf s a ∧ s.shared.nextHandle + 1 < usizeBound)
    (h : sessionStep m s a = some s') : ∃ path, SessionInv m fileOf s' path := by
  obtain ⟨path, hinv⟩ := hinv
  obtain ⟨hgives, hbound⟩ := hok
  cases a with
  | ask request =>
      obtain rfl := Option.some.inj h
      exact ⟨path, inv_ask hinv request⟩
  | step k ch =>
      unfold sessionStep at h
      cases ht : s.tasks[k]? with
      | none => simp [ht] at h
      | some t =>
          simp only [ht] at h
          cases hstep : t.step m ch s.shared with
          | none => simp [hstep] at h
          | some res =>
              obtain ⟨shared, phase⟩ := res
              simp only [hstep, Option.some.injEq] at h
              subst h
              have hmem := List.mem_of_getElem? ht
              have hanswered := answered_set ht hstep
              obtain ⟨path', hafter⟩ := after_task hsized hinv.shared hinv.handles hbound
                (fun info fileSize => hgives t info fileSize ht) (hinv.known t hmem) hstep
              obtain ⟨hnext, hheld, hapart⟩ := held_step hinv ht hbound (task_handles hstep)
              obtain ⟨hhandles, hkept⟩ := handles_step hinv ht hstep
              refine ⟨path', hafter.inv, hhandles, fun u hu => ?_, fun u hu fh hfh => ?_,
                hinv.apart.set (fun _ _ h => h.symm) hapart, hkept⟩
              · rcases Tasks.mem_set_cases hu with rfl | ⟨j, -, hj⟩
                · exact hafter.known.grow (Extends.refl _ _) (fun _ _ h => hanswered.openedWith h)
                · exact (hinv.known u (List.mem_of_getElem? hj)).grow hafter.grows
                    (fun _ _ h => hanswered.openedWith h)
              · rcases Tasks.mem_set_cases hu with rfl | ⟨j, -, hj⟩
                · exact hheld fh hfh
                · exact (hinv.held u (List.mem_of_getElem? hj) fh hfh).trans hnext

omit [DecidableEq Oid] in
theorem inv_start (m : Mounted Oid) (fileOf : String → List UInt8) :
    ∃ path, SessionInv m fileOf (start m) path := by
  obtain ⟨path, hinv, -⟩ := populate_inv (inv_buildSingleLazy m.ctx m.rootTree) rootInode
  have hcaches : Caches m fileOf (start m).shared :=
    ⟨fun _ _ h => (by cases h), fun _ _ h => (by cases h), fun _ _ h => (by cases h)⟩
  refine ⟨path, ⟨hinv, hcaches⟩, fun _ _ h => ?_, fun _ h => ?_, fun _ h => ?_, Tasks.apart_nil,
    fun _ h => ?_⟩
  · cases h
  · cases h
  · cases h
  · cases h

/-- At most one handle a step. -/
theorem nextHandle_le {s s' : Session Oid} {a : Act} (h : sessionStep m s a = some s') :
    s'.shared.nextHandle ≤ s.shared.nextHandle + 1 := by
  cases a with
  | ask request =>
      obtain rfl := Option.some.inj h
      exact Nat.le_succ _
  | step k ch =>
      unfold sessionStep at h
      cases ht : s.tasks[k]? with
      | none => simp [ht] at h
      | some t =>
          simp only [ht] at h
          cases hstep : t.step m ch s.shared with
          | none => simp [hstep] at h
          | some res =>
              obtain ⟨shared, phase⟩ := res
              simp only [hstep, Option.some.injEq] at h
              subst h
              cases task_handles hstep with
              | same t hhandles hnext hholds => exact hnext ▸ Nat.le_succ _
              | claim request data hhandles hnext hphase => exact hnext ▸ Nat.mod_le _ _
              | insert request data fh hhandles hnext hphase => exact hnext ▸ Nat.le_succ _
              | release fh hhandles hnext hphase => exact hnext ▸ Nat.le_succ _

end Steps

/-! ## The mount -/

/-- **What a mount answers**, with any callbacks side by side: attributes, listings and errors are those
    of the path in the revision, and what is read from a handle is the beginning of what was asked for
    of the file that the handle was answered for. A path keeps its inode, which no other path has; no
    handle is answered twice, and one that was is in the table until it is released.

    Blob reads, reconstructions and positional reads may fail when they please. A tree of the revision
    is read alike whenever it is read; a pointer has the size of its file (`Sized`), and what the chunk
    cache and the server give of a file is of that file (`GivesFiles`). -/
theorem mount_answers_tree [DecidableEq Oid] (m : Mounted Oid) (fileOf : String → List UInt8)
    (hsized : m.Sized fileOf) (acts : List Act) (s : Session Oid)
    (hgives : Machine.Admissible (sessionStep m) (GivesFiles fileOf) (start m) acts)
    (hlen : acts.length < usizeBound)
    (hrun : Machine.run (sessionStep m) (start m) acts = some s) :
    (∀ t ∈ s.tasks, ∀ reply, t.phase = .done reply →
      Answers m fileOf (OpenedWith m fileOf s.tasks) t.request reply) ∧
    (∀ t ∈ s.tasks, ∀ t' ∈ s.tasks, ∀ op op' p p' a a', t.request = .onPath op (some p) →
      t'.request = .onPath op' (some p') → t.phase = .done (.attr a) →
        t'.phase = .done (.attr a') →
          (a.stIno = a'.stIno ↔ pathComponents p = pathComponents p')) ∧
    Tasks.Apart Task.Apart s.tasks ∧
    (∀ fh, s.shared.handles fh ≠ none → ∃ content, OpenedWith m fileOf s.tasks fh content) ∧
    ∀ t ∈ s.tasks, ∀ fh, t.phase = .done (.opened fh) →
      s.shared.handles fh ≠ none ∨ Released s.tasks fh := by
  have hadm : Machine.Admissible (sessionStep m)
      (fun s a => GivesFiles fileOf s a ∧ s.shared.nextHandle + 1 < usizeBound) (start m) acts :=
    hgives.bounded (fun _ _ _ => nextHandle_le) (by simpa [start] using hlen)
  obtain ⟨path, hinv⟩ := Machine.run_invariant
    (fun s a s' hinv hok hstep => inv_sessionStep hsized hinv hok hstep) (inv_start m fileOf) hadm hrun
  refine ⟨fun t ht reply hreply => ?_, fun t ht t' ht' op op' p p' a a' hreq hreq' ha ha' => ?_,
    hinv.apart, fun fh hfh => ?_, hinv.kept⟩
  · have hknown := hinv.known t ht
    rw [hreply] at hknown
    exact hknown.1
  · have hstands : ∀ {u : Task Oid} {op : PathOp} {p : String} {a : Attr}, u ∈ s.tasks →
        u.request = .onPath op (some p) → u.phase = .done (.attr a) →
          StandsFor s.shared.vfs path a.stIno (pathComponents p) := by
      intro u op p a hu hrequest hphase
      have hknown := hinv.known u hu
      rw [hphase] at hknown
      obtain ⟨op', p', hrequest', hstands⟩ := hknown.2 a rfl
      rw [hrequest] at hrequest'
      obtain ⟨-, hp⟩ := Request.onPath.inj hrequest'
      exact (Option.some.inj hp) ▸ hstands
    obtain ⟨hgiven, hpath⟩ := hstands ht hreq ha
    obtain ⟨hgiven', hpath'⟩ := hstands ht' hreq' ha'
    rw [← hpath, ← hpath']
    exact ⟨fun heq => heq ▸ rfl, hinv.shared.vfs.core.inj _ _ hgiven hgiven'⟩
  · obtain ⟨data, hdata⟩ := Option.ne_none_iff_exists'.1 hfh
    exact ⟨data.content, (hinv.handles fh data hdata).2⟩

/-- The text of a pointer to a file of three bytes. -/
def pointerText : String :=
  "\x7b\n  \"hash\": \"" ++ Sample.hash 'a' ++ "\",\n  \"file_size\": 3\n\x7d"

/-- What a callback has replied. -/
def Phase.replied : Phase Oid → Option Reply
  | .done reply => some reply
  | _ => none

/-- One pointer in one directory. -/
def onePointer : Mounted Nat where
  ctx :=
    { findTree := fun oid =>
        if oid = 0 then .ok ⟨[⟨.tree, "d", 1⟩], by decide, by decide⟩
        else .ok ⟨[⟨.blob, "a", 2⟩], by decide, by decide⟩
      pathspec := [] }
  rootTree := 0
  object := fun oid => if oid = 2 then some ⟨.blob, asBytes pointerText⟩ else none
  fromStr := fun text => if text = pointerText then some ⟨Sample.hash 'a', some 3, none⟩ else none
  showOid := toString

/-- The bytes of the file, whatever it is called. -/
def threeBytes (_ : String) : List UInt8 := [1, 2, 3]

/-- Nothing is cached, and the download goes through. -/
def cold : Choice where
  objectFault := false
  env := ⟨true, none, .ok none, none, fun _ _ => .missing, none, none, ⟨[1, 2, 3], none⟩, none⟩
  preadFault := false
  os := byteRead

/-- A manifest of two terms is there, and the chunk cache has both; a download would fail. -/
def hot : Choice :=
  { cold with env := ⟨true, none, .ok (some [⟨Sample.hash 'x', 0, 1, 2⟩, ⟨Sample.hash 'y', 0, 1, 1⟩]),
      none, fun i _ => if i = 0 then .data [1, 2] none else .data [3] none, none, none,
      ⟨[], some "server unreachable"⟩, none⟩ }

/-- The download gives what it should, and so do the cached terms. -/
theorem gives_threeBytes : cold.env.Gives [1, 2, 3] ∧ hot.env.Gives [1, 2, 3] := by
  refine ⟨⟨fun terms h => ?_, fun _ => rfl⟩, ⟨fun terms h k term bytes error hterm hread _ => ?_,
    fun h => ?_⟩⟩
  · cases h
  · obtain rfl := Option.some.inj (Except.ok.inj h)
    rcases k with _ | _ | k
    · obtain rfl := Option.some.inj hterm
      obtain ⟨rfl, -⟩ := CacheRead.data.inj hread
      rfl
    · obtain rfl := Option.some.inj hterm
      obtain ⟨rfl, -⟩ := CacheRead.data.inj hread
      rfl
    · cases hterm
  · cases h

/-- Two `open`s side by side, one of which downloads the file while the other has it from the chunk
    cache; a `getattr`, and a read of the second handle. -/
def openAndRead : List Act :=
  [.ask (.onPath (.opOpen (some 0)) (some "/d/a")), .ask (.onPath (.opOpen (some 0)) (some "/d/a"))] ++
    List.replicate 7 (.step 0 cold) ++ List.replicate 7 (.step 1 cold) ++
    [.step 0 cold, .step 1 hot] ++ List.replicate 3 (.step 0 cold) ++ List.replicate 3 (.step 1 cold) ++
    [.ask (.onPath (.opGetattr true) (some "/d/a"))] ++ List.replicate 7 (.step 2 cold) ++
    [.ask (.opRead true (some 2) 2 1)] ++ List.replicate 2 (.step 3 cold)

theorem gives_openAndRead : Machine.Admissible (sessionStep onePointer) (GivesFiles threeBytes)
    (start onePointer) openAndRead := by
  refine Machine.admissible_of_forall (fun s a ha => ?_) _
  cases a with
  | ask request => trivial
  | step k ch =>
      have hch : ch = cold ∨ ch = hot := by
        simp [openAndRead] at ha
        grind
      intro t info fileSize _ _
      rcases hch with rfl | rfl
      · exact gives_threeBytes.1
      · exact gives_threeBytes.2

theorem sized_onePointer : onePointer.Sized threeBytes := by
  intro oid data info size hobj hinfo hsize
  simp only [onePointer] at hobj hinfo
  split_ifs at hobj
  obtain rfl := congrArg GitObject.data (Option.some.inj hobj)
  have hpointer : mountPointer (fun text => if text = pointerText then
      some ⟨Sample.hash 'a', some 3, none⟩ else none) (asBytes pointerText) =
        some ⟨Sample.hash 'a', some 3, none⟩ := by
    decide +kernel
  obtain rfl := Option.some.inj (hpointer.symm.trans hinfo)
  exact (Option.some.inj hsize).symm

theorem mount_answers_open_and_read : ∃ s,
    Machine.run (sessionStep onePointer) (start onePointer) openAndRead = some s ∧
    s.tasks.map (fun t => t.phase.replied) = [some (.opened 1), some (.opened 2),
      some (.attr (fileAttr 3 3)), some (.data [2, 3])] ∧
    ∀ t ∈ s.tasks, ∀ reply, t.phase = .done reply →
      Answers onePointer threeBytes (OpenedWith onePointer threeBytes s.tasks) t.request reply := by
  have hsome : (Machine.run (sessionStep onePointer) (start onePointer) openAndRead).map
      (fun s => s.tasks.map (fun t => t.phase.replied)) = some [some (.opened 1), some (.opened 2),
        some (.attr (fileAttr 3 3)), some (.data [2, 3])] := by
    decide +kernel
  obtain ⟨s, hrun, hreplies⟩ := Option.map_eq_some_iff.1 hsome
  exact ⟨s, hrun, hreplies, (mount_answers_tree onePointer threeBytes sized_onePointer openAndRead s
    gives_openAndRead (by decide) hrun).1⟩

end BaleForGit.Mount
