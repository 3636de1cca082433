import BaleForGit.Server.Sequential

set_option autoImplicit false

/-! # Accounted bytes and bytes on disk

The size that a `xorbs` row gets is the sum of the stored frames, which is where the frames of the
body end. What follows them, a footer or any other trailer, is stored and not accounted. A xorb that
no CAS block ever named has no row and is not accounted at all, though files may refer to it.
`AccountsWhole` is the condition that neither happens. -/

namespace BaleForGit.Server

/-- The length of the blob of a xorb. -/
def blobLength (st : ServerState) (x : XorbHash) : Nat := ((st.blobs x).map List.length).getD 0

/-- Every row has the size of its blob, and the stored bytes of every owner are the lengths of the
    blobs of the distinct xorbs that its files refer to. -/
structure BytesOnDisk (st : ServerState) : Prop where
  rows : ∀ r ∈ st.db.xorbs, r.diskSize = blobLength st r.info.xorb
  stored : ∀ owner, st.db.ownerBytes owner =
    ((st.db.xorbsOfOwner owner).dedup.map (blobLength st)).sum

/-- The frames of the stored body end where it ends. -/
def NoTrailer (st : ServerState) (x : XorbHash) : Prop :=
  ∀ body frames, st.blobs x = some body → parseXorbFrames body = .ok frames →
    framesBytes frames = body.length

/-- The CAS blocks that get a row name bodies without a trailer; and an accepted shard stores terms
    only of xorbs that have a row or a CAS block in it. -/
def AccountsWhole (svc : Service) (st : ServerState) (a : Request) : Prop :=
  match a with
  | .shard r => ∀ parsed, checkShard st r.body = .ok parsed →
      (∀ cb ∈ parsed.casBlocks, cb.xorb ∉ st.db.xorbs.map XorbRow.key → NoTrailer st cb.xorb) ∧
      (Accepted svc st (.shard r) → ∀ h terms, st.db.fileTermList h = [] →
        firstList h r.files = some terms → ∀ t ∈ terms,
          t.xorb ∈ st.db.xorbs.map XorbRow.key ∨ ∃ cb ∈ parsed.casBlocks, cb.xorb = t.xorb)
  | _ => True

/-! ## Stored bytes -/

/-- Every xorb that terms refer to has a row. -/
def RowsCover (db : Db) : Prop := ∀ t ∈ db.fileTerms, t.term.xorb ∈ db.xorbs.map XorbRow.key

section State

variable {svc : Service} {bodies : List (List UInt8)} {st : ServerState}

/-- A stored blob is not empty. -/
theorem SeqInv.blobLength_pos (hinv : SeqInv svc bodies st) {x : XorbHash}
    (hx : st.blobs x ≠ none) : 0 < blobLength st x := by
  obtain ⟨body, hbody⟩ := Option.ne_none_iff_exists'.1 hx
  obtain ⟨frames, hparse, -⟩ := hinv.agree x body hbody
  obtain ⟨hne, hlen, -⟩ := parseXorbFrames_length hparse
  have hpos := List.length_pos_iff.2 hne
  unfold blobLength headerLen at *
  rw [hbody, Option.map_some, Option.getD_some]
  omega

/-- **The stored bytes are those on disk exactly when every xorb referred to has a row**, if rows have
    the sizes of their blobs. -/
theorem stored_iff_rowsCover (hinv : SeqInv svc bodies st)
    (hrows : ∀ r ∈ st.db.xorbs, r.diskSize = blobLength st r.info.xorb) :
    (∀ owner, st.db.ownerBytes owner =
      ((st.db.xorbsOfOwner owner).dedup.map (blobLength st)).sum) ↔ RowsCover st.db := by
  have hsplit : ∀ owner, ((st.db.xorbsOfOwner owner).dedup.map (blobLength st)).sum =
      st.db.ownerBytes owner + Table.sumOn (blobLength st)
        (fun x => !decide (x ∈ st.db.xorbs.map XorbRow.key)) (st.db.xorbsOfOwner owner).dedup := by
    intro owner
    rw [← Table.sumOn_add_not]
    congr 1
    exact (Table.sumOn_keys hinv.rowKeys hrows _).symm
  have hzero : ∀ owner, st.db.ownerBytes owner =
      ((st.db.xorbsOfOwner owner).dedup.map (blobLength st)).sum ↔
        ∀ x ∈ st.db.xorbsOfOwner owner, x ∈ st.db.xorbs.map XorbRow.key := by
    intro owner
    rw [hsplit owner, Nat.left_eq_add, Table.sumOn_eq_zero]
    simp only [List.mem_dedup, Bool.not_eq_true', decide_eq_false_iff_not]
    refine ⟨fun h x hx => ?_, fun h x hx hno => absurd (h x hx) hno⟩
    by_contra hno
    obtain ⟨t, ht, rfl, -⟩ := mem_xorbsOfOwner.1 hx
    have hpos := hinv.blobLength_pos (hinv.termBlobs t ht).1
    exact absurd (h _ hx hno) (by omega)
  simp only [hzero]
  constructor
  · intro h t ht
    obtain ⟨f, hf, hhash⟩ := hinv.termFiles t ht
    exact h f.owner _ (mem_xorbsOfOwner.2 ⟨t, ht, rfl, f, hf, hhash, rfl⟩)
  · intro h owner x hx
    obtain ⟨t, ht, rfl, -⟩ := mem_xorbsOfOwner.1 hx
    exact h t ht

theorem bytesOnDisk_iff (hinv : SeqInv svc bodies st) :
    BytesOnDisk st ↔ (∀ r ∈ st.db.xorbs, r.diskSize = blobLength st r.info.xorb) ∧
      RowsCover st.db := by
  constructor
  · intro h
    exact ⟨h.rows, (stored_iff_rowsCover hinv h.rows).1 h.stored⟩
  · intro h
    exact ⟨h.1, (stored_iff_rowsCover hinv h.1).2 h.2⟩

/-! ## The rows of CAS blocks -/

theorem frameLayout_onDiskLen (frames : List XorbChunkFrame) :
    (frameLayout frames).map (fun f => f.onDiskLen) = frames.map (fun f => f.onDiskLen) := by
  refine List.ext_getElem (by simp [frameLayout]) (fun i hi hi' => ?_)
  simp [frameLayout]

/-- **A row of a CAS block accounts the frames of the blob.** -/
theorem SeqInv.casBlock_diskSize (hinv : SeqInv svc bodies st) {blocks : List ParsedCasBlock}
    {cb : ParsedCasBlock} (hcb : cb ∈ blocks) {body : List UInt8} {frames : List XorbChunkFrame}
    (hblob : st.blobs cb.xorb = some body) (hparse : parseXorbFrames body = .ok frames) (now : Int) :
    (⟨casBlockInfo (st.db.xorbFrameLayouts (blocks.map (fun cb => cb.xorb))) cb, now⟩ :
      XorbRow).diskSize = framesBytes frames := by
  obtain ⟨got, hgot, hlayout⟩ := hinv.agree cb.xorb body hblob
  rw [hparse, Except.ok.injEq] at hgot
  subst hgot
  obtain ⟨-, hmaxBody, -⟩ := hinv.verified cb.xorb body hblob
  obtain ⟨q, htiles, -, hq⟩ := parseXorbFrames_tiles hparse
  obtain ⟨hne, -, -⟩ := parseXorbFrames_length hparse
  have hstop := htiles.stop_eq
  have hcount := framesBytes_ge htiles
  have hpos := List.length_pos_iff.2 hne
  have hlayouts : st.db.xorbFrameLayouts (blocks.map (fun cb => cb.xorb)) cb.xorb =
      some (frameLayout frames) := by
    unfold Db.xorbFrameLayouts
    rw [hlayout, if_pos ⟨List.mem_map.2 ⟨cb, hcb, rfl⟩, by simp [frameLayout, hne]⟩]
  have hzero : (0 : UInt32).toNat = 0 := rfl
  have hbytes : ((frames.map (fun f => f.onDiskLen)).map UInt32.toNat).sum = framesBytes frames := by
    rw [List.map_map]
    rfl
  have hsum := toNat_foldl_add (frames.map (fun f => f.onDiskLen)) 0 (by
    rw [hzero, hbytes]
    unfold maxBodyBytes at hmaxBody
    omega)
  rw [hzero, Nat.zero_add, hbytes] at hsum
  unfold XorbRow.diskSize casBlockInfo
  simp only [hlayouts, frameLayout_onDiskLen]
  unfold headerLen at hcount
  have hgt : (0 : UInt32) < (frames.map (fun f => f.onDiskLen)).foldl (· + ·) 0 := by
    rw [UInt32.lt_iff_toNat_lt, hzero]
    omega
  rw [if_pos hgt]
  exact hsum

theorem mem_keys_casBlocks {db : Db} {blocks : List ParsedCasBlock} {now : Int} {x : XorbHash} :
    x ∈ (registerCasBlocks db blocks now).xorbs.map XorbRow.key ↔
      x ∈ db.xorbs.map XorbRow.key ∨ ∃ cb ∈ blocks, cb.xorb = x := by
  rw [registerCasBlocks_xorbs]
  constructor
  · intro h
    rw [Table.insertAll_eq_append_fresh, List.map_append, List.mem_append] at h
    rcases h with hold | hnew
    · exact Or.inl hold
    · obtain ⟨r, hr, rfl⟩ := List.mem_map.1 hnew
      obtain ⟨cb, hcb, rfl⟩ := List.mem_map.1 (Table.mem_fresh hr).1
      exact Or.inr ⟨cb, hcb, rfl⟩
  · intro h
    rcases h with hold | ⟨cb, hcb, rfl⟩
    · rw [Table.insertAll_eq_append_fresh, List.map_append, List.mem_append]
      exact Or.inl hold
    · exact Table.key_mem_insertAll (List.mem_map_of_mem hcb)

/-- **CAS blocks keep the sizes right exactly when the bodies of the new rows have no trailer.** -/
theorem SeqInv.rows_casBlocks_iff (hinv : SeqInv svc bodies st) {body : List UInt8}
    {parsed : ParsedShard} (hcheck : checkShard st body = .ok parsed) (now : Int)
    (hrows : ∀ r ∈ st.db.xorbs, r.diskSize = blobLength st r.info.xorb) :
    (∀ r ∈ (registerCasBlocks st.db parsed.casBlocks now).xorbs,
        r.diskSize = blobLength st r.info.xorb) ↔
      ∀ cb ∈ parsed.casBlocks, cb.xorb ∉ st.db.xorbs.map XorbRow.key → NoTrailer st cb.xorb := by
  obtain ⟨-, hblocks, -⟩ := checkShard_ok hcheck
  have hlen : ∀ {x : XorbHash} {b : List UInt8}, st.blobs x = some b → blobLength st x = b.length := by
    intro x b hb
    unfold blobLength
    rw [hb]
    rfl
  constructor
  · intro hafter cb hcb hnew b frames hblob hparse
    obtain ⟨r, hr, hkey⟩ := List.mem_map.1 (mem_keys_casBlocks.2 (Or.inr ⟨cb, hcb, rfl⟩))
    have hsize := hafter r hr
    rw [registerCasBlocks_xorbs, Table.insertAll_eq_append_fresh, List.mem_append] at hr
    rcases hr with hold | hfresh
    · exact absurd (List.mem_map.2 ⟨r, hold, hkey⟩) hnew
    · obtain ⟨cb', hcb', rfl⟩ := List.mem_map.1 (Table.mem_fresh hfresh).1
      have hx : cb'.xorb = cb.xorb := hkey
      have hblob' : st.blobs cb'.xorb = some b := by rw [hx, hblob]
      rw [hinv.casBlock_diskSize hcb' hblob' hparse now] at hsize
      rw [hsize]
      exact hlen hblob'
  · intro htrailer r hr
    rw [registerCasBlocks_xorbs, Table.insertAll_eq_append_fresh, List.mem_append] at hr
    rcases hr with hold | hfresh
    · exact hrows r hold
    · obtain ⟨hmem, hnew⟩ := Table.mem_fresh hfresh
      obtain ⟨cb, hcb, rfl⟩ := List.mem_map.1 hmem
      obtain ⟨b, hblob⟩ := Option.ne_none_iff_exists'.1 (hblocks cb hcb)
      obtain ⟨frames, hparse, -⟩ := hinv.agree cb.xorb b hblob
      rw [hinv.casBlock_diskSize hcb hblob hparse now, htrailer cb hcb hnew b frames hblob hparse]
      exact (hlen hblob).symm

/-- **Registering files keeps every xorb covered exactly when the xorbs of the stored lists are.** -/
theorem rowsCover_files_iff (hcover : RowsCover st.db)
    (blocks : List ParsedCasBlock) (repo : RepoRef) (files : List (FileHash × List FileTerm))
    (now : Int) :
    RowsCover ((registerCasBlocks st.db blocks now).registerFiles repo files now) ↔
      ∀ h terms, st.db.fileTermList h = [] → firstList h files = some terms → ∀ t ∈ terms,
        t.xorb ∈ st.db.xorbs.map XorbRow.key ∨ ∃ cb ∈ blocks, cb.xorb = t.xorb := by
  obtain ⟨hxorbs, -, -, -⟩ :=
    registerFiles_frame (registerCasBlocks st.db blocks now) repo files now
  obtain ⟨-, hterms, -, -⟩ := registerCasBlocks_frame st.db blocks now
  have hafter : ∀ h, termsOf h ((registerCasBlocks st.db blocks now).registerFiles repo files
      now).fileTerms = if termsOf h st.db.fileTerms = [] then firstRows h files
        else termsOf h st.db.fileTerms := by
    intro h
    rw [termsOf_registerFiles, hterms]
  unfold RowsCover
  rw [hxorbs]
  simp only [mem_keys_casBlocks]
  constructor
  · intro hall h terms hnone hfirst t ht
    have hrows : termsOf h ((registerCasBlocks st.db blocks now).registerFiles repo files
        now).fileTerms = termRows h terms := by
      rw [hafter h, if_pos (fileTermList_eq_nil.1 hnone), firstRows, hfirst]
    obtain ⟨row, hrow, rfl⟩ := exists_mem_termRows h ht
    rw [← hrows, mem_termsOf] at hrow
    exact hall row hrow.1
  · intro hfirst t ht
    have hmem : t ∈ termsOf t.fileHash ((registerCasBlocks st.db blocks now).registerFiles repo
      files now).fileTerms := mem_termsOf.2 ⟨ht, rfl⟩
    rw [hafter] at hmem
    split_ifs at hmem with hnone
    · unfold firstRows at hmem
      cases hlist : firstList t.fileHash files with
      | none => simp [hlist] at hmem
      | some terms =>
          rw [hlist] at hmem
          exact hfirst _ terms (fileTermList_eq_nil.2 hnone) hlist _ (mem_termRows hmem).2
    · exact Or.inl (hcover t (mem_termsOf.1 hmem).1)

/-! ## One request -/

theorem BytesOnDisk.of_same (h : BytesOnDisk st) {st' : ServerState} (hblobs : st'.blobs = st.blobs)
    (hxorbs : st'.db.xorbs = st.db.xorbs) (hfiles : st'.db.files = st.db.files)
    (hterms : st'.db.fileTerms = st.db.fileTerms) : BytesOnDisk st' := by
  have hlen : blobLength st' = blobLength st := by
    unfold blobLength
    rw [hblobs]
  refine ⟨?_, fun owner => ?_⟩
  · rw [hxorbs, hlen]
    exact h.rows
  · unfold Db.ownerBytes Db.diskBytes
    rw [xorbsOfOwner_congr hfiles hterms, hxorbs, hlen]
    exact h.stored owner

/-- A new blob is of a xorb without rows and terms. -/
theorem SeqInv.bytesOnDisk_xorb (hinv : SeqInv svc bodies st) {r : XorbRequest}
    {res : ServerState × Bool} (hup : uploadXorb svc st r = .ok res) (h : BytesOnDisk st)
    (hinv' : SeqInv svc bodies res.1) : BytesOnDisk res.1 := by
  obtain ⟨-, -, layout, -, hdb, -, hblobs⟩ := uploadXorb_cases hup
  obtain ⟨hfiles, hterms, hxorbs, -, -⟩ := registerXorbLayout_frame st.db r.hash layout
  by_cases hsome : (st.blobs r.hash).isSome = true
  · rw [if_pos hsome] at hblobs
    exact h.of_same hblobs (by rw [hdb, hxorbs]) (by rw [hdb, hfiles]) (by rw [hdb, hterms])
  · rw [if_neg hsome] at hblobs
    obtain ⟨hrows, hcover⟩ := (bytesOnDisk_iff hinv).1 h
    refine (bytesOnDisk_iff hinv').2 ⟨fun row hrow => ?_, ?_⟩
    · rw [hdb, hxorbs] at hrow
      have hne : row.info.xorb ≠ r.hash := by
        intro heq
        have hblob := hinv.rowBlobs row hrow
        rw [heq] at hblob
        exact hsome (Option.ne_none_iff_isSome.1 hblob)
      rw [hrows row hrow]
      unfold blobLength
      rw [hblobs, Function.update_of_ne hne]
    · unfold RowsCover
      rw [hdb, hterms, hxorbs]
      exact hcover

/-- **A request keeps the accounts right exactly when it accounts whole bodies.** -/
theorem bytesOnDisk_handle_iff (hcoll : NoCollision svc.codec bodies) (hinv : SeqInv svc bodies st)
    {a : Request} (ha : ∀ r, a = .xorb r → r.body ∈ bodies) (h : BytesOnDisk st) :
    BytesOnDisk (handle svc st a) ↔ AccountsWhole svc st a := by
  have hinv' := hinv.handle hcoll ha
  obtain ⟨hrows, hcover⟩ := (bytesOnDisk_iff hinv).1 h
  cases a with
  | quota owner limit =>
      refine ⟨fun _ => trivial, fun _ => ?_⟩
      obtain ⟨hxorbs, -, -, hfiles, hterms⟩ := setOwnerQuota_frame st.db owner limit
      exact h.of_same rfl hxorbs hfiles hterms
  | xorb r =>
      refine ⟨fun _ => trivial, fun _ => ?_⟩
      simp only [handle] at hinv' ⊢
      cases hup : uploadXorb svc st r with
      | error e => exact h
      | ok res =>
          simp only [hup] at hinv'
          exact hinv.bytesOnDisk_xorb hup h hinv'
  | shard r =>
      rw [bytesOnDisk_iff hinv']
      simp only [handle, AccountsWhole, Accepted]
      rcases uploadShard_cases svc st r with ⟨e, hcheck, hres⟩ | ⟨parsed, hcheck, hres⟩
      · rw [hres, hcheck]
        exact ⟨fun _ parsed hp => by simp at hp, fun _ => ⟨hrows, hcover⟩⟩
      · obtain ⟨hparse, -, -⟩ := checkShard_ok hcheck
        have hsizes := hinv.rows_casBlocks_iff hcheck r.now hrows
        -- the condition is about the one shard that the body parses to
        have hall : (∀ p, checkShard st r.body = .ok p →
              (∀ cb ∈ p.casBlocks, cb.xorb ∉ st.db.xorbs.map XorbRow.key → NoTrailer st cb.xorb) ∧
              ((uploadShard svc st r).2 = .ok () → ∀ h terms, st.db.fileTermList h = [] →
                firstList h r.files = some terms → ∀ t ∈ terms,
                  t.xorb ∈ st.db.xorbs.map XorbRow.key ∨ ∃ cb ∈ p.casBlocks, cb.xorb = t.xorb)) ↔
            (∀ cb ∈ parsed.casBlocks, cb.xorb ∉ st.db.xorbs.map XorbRow.key →
              NoTrailer st cb.xorb) ∧
              ((uploadShard svc st r).2 = .ok () → ∀ h terms, st.db.fileTermList h = [] →
                firstList h r.files = some terms → ∀ t ∈ terms,
                  t.xorb ∈ st.db.xorbs.map XorbRow.key ∨
                    ∃ cb ∈ parsed.casBlocks, cb.xorb = t.xorb) := by
          rw [hcheck]
          refine ⟨fun hp => hp parsed rfl, fun hp p hpar => ?_⟩
          rw [← Except.ok.inj hpar]
          exact hp
        rw [hall, ← hsizes]
        rcases hres with ⟨e, hres, -⟩ | ⟨files, -, hlist, hres⟩
        -- rejected after its rows: no terms are added; accepted: each list it stores is covered
        · rw [hres]
          obtain ⟨-, hterms, -, -⟩ := registerCasBlocks_frame st.db parsed.casBlocks r.now
          refine and_congr Iff.rfl ⟨fun _ hok => by simp at hok, fun _ t ht => ?_⟩
          rw [hterms] at ht
          exact mem_keys_casBlocks.2 (Or.inl (hcover t ht))
        · have hfiles : r.files = files := by
            simp only [ShardRequest.files, hparse, hlist]
          obtain ⟨hxorbs, -, -, -⟩ := registerFiles_frame
            (registerCasBlocks st.db parsed.casBlocks r.now) r.repo files r.now
          rw [hres, hfiles]
          refine and_congr ?_ ?_
          · simp only [hxorbs]
            exact Iff.rfl
          · simp only [forall_const]
            exact rowsCover_files_iff hcover parsed.casBlocks r.repo files r.now

end State

/-- **Accounted bytes are bytes on disk exactly as long as whole bodies are accounted.** In a run of
    requests one at a time, every row has the size of its blob and every owner's stored bytes are
    those of its xorbs, in every state, if and only if every row is made for a body without a trailer
    and every stored term has a row for its xorb. -/
theorem bytes_on_disk_iff (svc : Service) (reqs : List Request) (t : ServerState)
    (hcoll : NoCollision svc.codec (uploadedBodies reqs))
    (hrun : Machine.run (requestStep svc) ServerState.empty reqs = some t) :
    (∀ before rest s, reqs = before ++ rest →
        Machine.run (requestStep svc) ServerState.empty before = some s → BytesOnDisk s) ↔
      Machine.Admissible (requestStep svc) (AccountsWhole svc) ServerState.empty reqs := by
  have hbodies : ∀ a ∈ reqs, ∀ r, a = .xorb r → r.body ∈ uploadedBodies reqs :=
    fun a ha r hr => mem_uploadedBodies (hr ▸ ha)
  have hinit : BytesOnDisk ServerState.empty :=
    (bytesOnDisk_iff (seqInv_empty svc (uploadedBodies reqs))).2
      ⟨fun r hr => by simp [ServerState.empty, Db.empty] at hr,
        fun t ht => by simp [ServerState.empty, Db.empty] at ht⟩
  have hbase : ∀ s, ∀ a ∈ reqs, ∀ s', SeqInv svc (uploadedBodies reqs) s →
      requestStep svc s a = some s' → SeqInv svc (uploadedBodies reqs) s' := by
    intro s a ha s' hinv hstep
    rw [← Option.some.inj hstep]
    exact hinv.handle hcoll (hbodies a ha)
  refine (Machine.admissible_iff_of_step hbase ?_ (seqInv_empty svc _) hinit hrun).symm
  intro s a ha s' hinv hs hstep
  rw [← Option.some.inj hstep]
  exact bytesOnDisk_handle_iff hcoll hinv (hbodies a ha) hs

namespace Sample

/-- A body with a trailing byte where no header fits. -/
def trailedUpload : XorbRequest := ⟨repo, hash32 0x61, plainBody ++ [0x58]⟩

/-- A file of one byte, with the CAS block of its xorb. -/
def byteShard (x : UInt8) : ShardRequest :=
  ⟨repo, shard [file 1 [(x, 1, 0, 1)]] [casBlock x [(x, 0, 1)]], 0⟩

end Sample

/-- **A trailer is stored and not accounted.** -/
theorem trailer_not_accounted :
    ¬ ∀ (reqs : List Request) (t : ServerState),
      Machine.run (requestStep Sample.service) ServerState.empty reqs = some t →
        BytesOnDisk t := by
  have hrun : (Machine.run (requestStep Sample.service) ServerState.empty
      [.xorb Sample.trailedUpload, .shard (Sample.byteShard 0x61)]).map (fun s =>
        s.db.xorbs.all (fun r => decide (r.diskSize = blobLength s r.info.xorb))) =
      some false := by
    decide +kernel
  obtain ⟨t, ht, hrows⟩ := Option.map_eq_some_iff.1 hrun
  intro hdisk
  have hall : t.db.xorbs.all (fun r => decide (r.diskSize = blobLength t r.info.xorb)) = true :=
    List.all_eq_true.2 (fun r hr => decide_eq_true ((hdisk _ t ht).rows r hr))
  rw [hall] at hrows
  exact absurd hrows (by decide)

/-- A body without a trailer and a shard with its CAS block. -/
theorem bytes_on_disk_iff_whole : ∃ t,
    Machine.run (requestStep Sample.service) ServerState.empty
      [.xorb Sample.plainUpload, .shard (Sample.byteShard 0x61)] = some t ∧
    t.db.ownerBytes "alice" = 9 ∧
    Machine.Admissible (requestStep Sample.service) (AccountsWhole Sample.service)
      ServerState.empty [.xorb Sample.plainUpload, .shard (Sample.byteShard 0x61)] := by
  have hrun : (Machine.run (requestStep Sample.service) ServerState.empty
      [.xorb Sample.plainUpload, .shard (Sample.byteShard 0x61)]).map
        (fun s => s.db.ownerBytes "alice") = some 9 := by
    decide +kernel
  obtain ⟨t, ht, hbytes⟩ := Option.map_eq_some_iff.1 hrun
  have hcoll : NoCollision Sample.service.codec (uploadedBodies
      [.xorb Sample.plainUpload, .shard (Sample.byteShard 0x61)]) := by
    intro b hb b' hb' es es' hes hes' _
    have hone : uploadedBodies [.xorb Sample.plainUpload, .shard (Sample.byteShard 0x61)] =
      [Sample.plainBody] := rfl
    rw [hone, List.mem_singleton] at hb hb'
    rw [hb] at hes
    rw [hb', hes] at hes'
    exact Except.ok.inj hes'
  refine ⟨t, ht, hbytes, (bytes_on_disk_iff Sample.service _ t hcoll ht).1
    (Machine.forall_prefix_of_take ?_)⟩
  intro k hk s hs
  have hinv : SeqInv Sample.service _ s := run_seqInv hcoll
    (fun r hr => mem_uploadedBodies (List.mem_of_mem_take hr)) (seqInv_empty _ _) hs
  have hall : ∀ k ≤ 2, (Machine.run (requestStep Sample.service) ServerState.empty
      ([.xorb Sample.plainUpload, .shard (Sample.byteShard 0x61)].take k)).all (fun s =>
        s.db.xorbs.all (fun r => decide (r.diskSize = blobLength s r.info.xorb)) &&
          s.db.fileTerms.all (fun t => decide (t.term.xorb ∈ s.db.xorbs.map XorbRow.key))) =
      true := by
    decide +kernel
  have hk' := hall k hk
  rw [hs, Option.all_some, Bool.and_eq_true, List.all_eq_true, List.all_eq_true] at hk'
  exact (bytesOnDisk_iff hinv).2 ⟨fun r hr => of_decide_eq_true (hk'.1 r hr),
    fun t ht => of_decide_eq_true (hk'.2 t ht)⟩

end BaleForGit.Server
