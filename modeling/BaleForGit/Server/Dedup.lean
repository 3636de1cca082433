import BaleForGit.Server.Repeat

set_option autoImplicit false

/-! # Global dedup (`get_dedup_chunk`)

A client that holds a chunk asks which xorb has it already. The answer is a shard with a CAS block
for that xorb: all its chunks, in order, with their hashes keyed. The client refers to a chunk by its
position in the block, so a block has to be the list of chunks that the xorb was registered with.

The rows it is read from are keyed by chunk hash and xorb hash, and inserts ignore what is there. A
hash that occurs twice in a xorb leaves one row, and every later block for the xorb adds rows for the
hashes it has more; in both cases what is read back is another list. -/

namespace BaleForGit.Server

/-! ## The query -/

/-- `MDB_SHARD_HEADER_TAG`. -/
def mdbShardHeaderTag : List UInt8 :=
  [72, 70, 82, 101, 112, 111, 77, 101, 116, 97, 68, 97, 116, 97, 0, 85, 105, 103, 69, 106, 123, 129,
    87, 131, 165, 189, 217, 92, 205, 209, 74, 169]

def dedupNeighborhood : Nat := 8

def dedupKeyTtlSecs : UInt64 := 86400

/-- A `LIMIT 1` over `chunks` without `ORDER BY`. -/
structure LimitOneChunk (pick : List ChunkTableRow → Option ChunkTableRow) : Prop where
  mem : ∀ rows r, pick rows = some r → r ∈ rows
  nonempty : ∀ rows, rows ≠ [] → pick rows ≠ none

/-- An `ORDER BY chunk_index ASC`: rows with the same index come in any order. -/
structure OrderByIndex (sort : List ChunkTableRow → List ChunkTableRow) : Prop where
  perm : ∀ rows, (sort rows).Perm rows
  sorted : ∀ rows, (sort rows).Pairwise (fun a b => a.chunk.chunkIndex ≤ b.chunk.chunkIndex)

/-- `SELECT .. FROM chunks WHERE xorb_hash = x`. -/
def chunksOfXorb (x : XorbHash) (t : List ChunkTableRow) : List ChunkTableRow :=
  t.filter (fun r => decide (r.xorbHash = x))

/-- `xorbs_near_chunk`. -/
def Db.xorbsNearChunk (db : Db) (pick : List ChunkTableRow → Option ChunkTableRow) (c : ChunkHash)
    (limit : Nat) : CoreResult (List XorbInfo) :=
  match pick (db.chunks.filter (fun r => decide (r.chunk.chunkHash = c))) with
  | none => .ok []
  | some r =>
    match db.xorbs.find? (fun row => decide (row.info.xorb = r.xorbHash)) with
    | none => .error (.internal ("xorb meta: no rows returned by a query that expected to return " ++
        "at least one row"))
    | some row => .ok ([row.info].take limit)

/-- `xorb_chunk_offsets`. -/
def Db.xorbChunkOffsets (db : Db) (sort : List ChunkTableRow → List ChunkTableRow) (x : XorbHash) :
    List ChunkRow :=
  (sort (chunksOfXorb x db.chunks)).map (fun r => r.chunk)

section Query

-- `wrap_chunk_hash` is an HMAC-SHA256 of the chunk hash; nothing here depends on which
variable (wrapChunkHash : ChunkHash → Hash32 → ChunkHash)

/-- The entry of a chunk in an answer. -/
def wrapEntry (hmacKey : Hash32) (e : CasChunkEntry) : CasChunkEntry :=
  ⟨wrapChunkHash e.chunkHash hmacKey, e.byteStart, e.unpackedSegmentBytes⟩

/-- The CAS block of a xorb in an answer. -/
def dedupBlock (db : Db) (sort : List ChunkTableRow → List ChunkTableRow) (hmacKey : Hash32)
    (x : XorbInfo) : ParsedCasBlock :=
  ⟨x.xorb, 0, x.numBytesInCas, x.numBytesOnDisk, (db.xorbChunkOffsets sort x.xorb).map (fun c =>
    wrapEntry wrapChunkHash hmacKey ⟨c.chunkHash, c.byteStart, c.unpackedSegmentBytes⟩)⟩

/-- `get_dedup_chunk`, up to the serialization of the shard. The key is random and the time comes
    from the clock; xorbs whose blob is gone are left out. -/
def getDedupChunk (st : ServerState) (pick : List ChunkTableRow → Option ChunkTableRow)
    (sort : List ChunkTableRow → List ChunkTableRow) (hmacKey : Hash32) (now : UInt64)
    (c : ChunkHash) : Except ApiError ParsedShard := do
  let candidates ← (st.db.xorbsNearChunk pick c dedupNeighborhood).mapError ApiError.ofCore
  let near := candidates.filter (fun x => (st.blobs x.xorb).isSome)
  if near.isEmpty then .error ⟨404, "chunk not found"⟩
  else
    .ok ⟨⟨mdbShardHeaderTag, mdbShardHeaderVersion, footerSize⟩, [],
      near.map (dedupBlock wrapChunkHash st.db sort hmacKey),
      some ⟨mdbShardFooterVersion, 0, 0, hmacKey, now, now + dedupKeyTtlSecs, 0⟩⟩

/-- **What an answer holds**: one block, for a xorb with a row for the chunk, a row of its own and a
    blob. -/
theorem getDedupChunk_ok {st : ServerState} {pick : List ChunkTableRow → Option ChunkTableRow}
    {sort : List ChunkTableRow → List ChunkTableRow} {hmacKey : Hash32} {now : UInt64}
    {c : ChunkHash} {shard : ParsedShard}
    (h : getDedupChunk wrapChunkHash st pick sort hmacKey now c = .ok shard) :
    ∃ r row, pick (st.db.chunks.filter (fun r => decide (r.chunk.chunkHash = c))) = some r ∧
      row ∈ st.db.xorbs ∧ row.info.xorb = r.xorbHash ∧
      shard.casBlocks = [dedupBlock wrapChunkHash st.db sort hmacKey row.info] := by
  unfold getDedupChunk Db.xorbsNearChunk at h
  cases hpick : pick (st.db.chunks.filter (fun r => decide (r.chunk.chunkHash = c))) with
  | none => simp [hpick, Except.mapError, bind, Except.bind] at h
  | some r =>
      cases hfind : st.db.xorbs.find? (fun row => decide (row.info.xorb = r.xorbHash)) with
      | none => simp [hpick, hfind, Except.mapError, bind, Except.bind] at h
      | some row =>
          have hrow : row.info.xorb = r.xorbHash := by simpa using List.find?_some hfind
          refine ⟨r, row, rfl, List.mem_of_find?_eq_some hfind, hrow, ?_⟩
          simp only [hpick, hfind, Except.mapError, bind, Except.bind, dedupNeighborhood,
            List.take_succ_cons, List.take_nil] at h
          by_cases hblob : (st.blobs row.info.xorb).isSome = true
          · simp only [List.filter_cons, hblob, if_true, List.filter_nil, List.isEmpty_cons,
              Bool.false_eq_true, if_false, List.map_cons, List.map_nil, Except.ok.injEq] at h
            rw [← h]
          · simp [hblob] at h

/-- A chunk of a xorb with a row and a blob is answered. -/
theorem getDedupChunk_of_row {st : ServerState} {pick : List ChunkTableRow → Option ChunkTableRow}
    {c : ChunkHash} {r : ChunkTableRow}
    (hpick : pick (st.db.chunks.filter (fun r => decide (r.chunk.chunkHash = c))) = some r)
    (hrow : r.xorbHash ∈ st.db.xorbs.map XorbRow.key) (hblob : st.blobs r.xorbHash ≠ none)
    (sort : List ChunkTableRow → List ChunkTableRow) (hmacKey : Hash32) (now : UInt64) :
    ∃ shard, getDedupChunk wrapChunkHash st pick sort hmacKey now c = .ok shard := by
  unfold getDedupChunk Db.xorbsNearChunk
  cases hfind : st.db.xorbs.find? (fun row => decide (row.info.xorb = r.xorbHash)) with
  | none =>
      obtain ⟨row, hmem, hkey⟩ := List.mem_map.1 hrow
      exact absurd (decide_eq_true hkey) (List.find?_eq_none.1 hfind row hmem)
  | some row =>
      have hxorb : row.info.xorb = r.xorbHash := by simpa using List.find?_some hfind
      have hsome : (st.blobs row.info.xorb).isSome = true := by
        rw [hxorb]
        exact Option.ne_none_iff_isSome.1 hblob
      simp [hpick, hfind, Except.mapError, bind, Except.bind, dedupNeighborhood, hsome]

end Query

/-! ## The blocks of a run -/

def ServerAct.request : ServerAct → Request
  | .xorb r => .xorb r
  | .shard r => .shard r

theorem serverStep_eq_some {svc : Service} {st st' : ServerState} {a : ServerAct}
    (h : serverStep svc st a = some st') :
    Accepted svc st a.request ∧ handle svc st a.request = st' := by
  cases a with
  | xorb r =>
      simp only [serverStep] at h
      simp only [ServerAct.request, Accepted, handle]
      cases hup : uploadXorb svc st r with
      | error e => simp [hup] at h
      | ok res =>
          simp only [hup, Option.some.injEq] at h
          exact ⟨⟨res, rfl⟩, h⟩
  | shard r =>
      simp only [serverStep] at h
      simp only [ServerAct.request, Accepted, handle]
      cases hup : uploadShard svc st r with
      | mk st₁ res =>
          cases res with
          | error e => simp [hup] at h
          | ok u =>
              simp only [hup, Option.some.injEq] at h
              exact ⟨rfl, h⟩

def ShardRequest.casBlocks (r : ShardRequest) : List ParsedCasBlock :=
  match parse r.body with
  | .error _ => []
  | .ok parsed => parsed.casBlocks

/-- The CAS blocks that uploads register, in order. -/
def casLog (acts : List ServerAct) : List ParsedCasBlock :=
  acts.flatMap (fun a => match a with
    | .xorb _ => []
    | .shard r => r.casBlocks)

/-- The block that a xorb is registered with first. -/
def firstBlock (x : XorbHash) (log : List ParsedCasBlock) : Option ParsedCasBlock :=
  log.find? (fun cb => decide (cb.xorb = x))

/-- What the stores hold after the blocks of `log`. -/
structure BlockLog (log : List ParsedCasBlock) (t : ServerState) : Prop where
  chunks : t.db.chunks = Table.insertAll ChunkTableRow.key [] (casChunkRows log)
  recorded : ∀ row ∈ t.db.xorbs, ∃ cb, firstBlock row.info.xorb log = some cb ∧
    row.info.numChunks = UInt32.ofNat cb.chunks.length
  rows : ∀ cb ∈ log, cb.xorb ∈ t.db.xorbs.map XorbRow.key
  blobs : ∀ cb ∈ log, t.blobs cb.xorb ≠ none
  counted : ∀ cb ∈ log, cb.chunks.length < 4294967296

theorem firstBlock_mem {x : XorbHash} {log : List ParsedCasBlock} {cb : ParsedCasBlock}
    (h : firstBlock x log = some cb) : cb ∈ log ∧ cb.xorb = x :=
  ⟨List.mem_of_find?_eq_some h, by simpa using List.find?_some h⟩

/-- **A fresh row of a shard's blocks is that of the first block of its xorb.** -/
theorem recorded_fresh {db : Db} {blocks : List ParsedCasBlock} {now : Int} {row : XorbRow}
    (h : row ∈ Table.fresh XorbRow.key db.xorbs (casRows db blocks now)) :
    ∃ cb, firstBlock row.info.xorb blocks = some cb ∧
      row.info.numChunks = UInt32.ofNat cb.chunks.length := by
  have hfind := Table.find_of_mem_fresh h
  unfold casRows at hfind
  rw [List.find?_map, Option.map_eq_some_iff] at hfind
  obtain ⟨cb, hcb, hrow⟩ := hfind
  refine ⟨cb, hcb, ?_⟩
  rw [← hrow]
  rfl

theorem BlockLog.casBlocks {log : List ParsedCasBlock} {t : ServerState} (h : BlockLog log t)
    {blocks : List ParsedCasBlock} (hblobs : ∀ cb ∈ blocks, t.blobs cb.xorb ≠ none)
    (hcounted : ∀ cb ∈ blocks, cb.chunks.length < 4294967296) (now : Int) :
    BlockLog (log ++ blocks) { t with db := registerCasBlocks t.db blocks now } := by
  refine ⟨?_, fun row hrow => ?_, fun cb hcb => ?_, fun cb hcb => ?_, fun cb hcb => ?_⟩
  · simp only [registerCasBlocks_chunks, h.chunks, casChunkRows, List.flatMap_append,
      Table.insertAll_append]
  · simp only [registerCasBlocks_xorbs] at hrow
    rw [Table.insertAll_eq_append_fresh, List.mem_append] at hrow
    unfold firstBlock
    rw [List.find?_append]
    rcases hrow with hold | hfresh
    · obtain ⟨cb, hfirst, hcount⟩ := h.recorded row hold
      unfold firstBlock at hfirst
      rw [hfirst]
      exact ⟨cb, rfl, hcount⟩
    · -- a fresh row means that no earlier block named the xorb
      have hnone : log.find? (fun cb => decide (cb.xorb = row.info.xorb)) = none := by
        refine List.find?_eq_none.2 (fun cb hcb => ?_)
        intro heq
        refine (Table.mem_fresh hfresh).2 ?_
        have hkey := h.rows cb hcb
        rw [of_decide_eq_true heq] at hkey
        exact hkey
      rw [hnone, Option.none_or]
      exact recorded_fresh hfresh
  · simp only [registerCasBlocks_xorbs]
    rcases List.mem_append.1 hcb with hold | hnew
    · exact Table.keys_subset_insertAll _ _ (h.rows cb hold)
    · exact Table.key_mem_insertAll (List.mem_map.2 ⟨cb, hnew, rfl⟩)
  · rcases List.mem_append.1 hcb with hold | hnew
    · exact h.blobs cb hold
    · exact hblobs cb hnew
  · rcases List.mem_append.1 hcb with hold | hnew
    · exact h.counted cb hold
    · exact hcounted cb hnew

/-- What writes neither `xorbs` nor `chunks` and drops nothing keeps the log. -/
theorem BlockLog.of_same {log : List ParsedCasBlock} {t t' : ServerState} (h : BlockLog log t)
    (hxorbs : t'.db.xorbs = t.db.xorbs) (hchunks : t'.db.chunks = t.db.chunks)
    (hblobs : ∀ x, t.blobs x ≠ none → t'.blobs x ≠ none) : BlockLog log t' where
  chunks := hchunks.trans h.chunks
  recorded := hxorbs ▸ h.recorded
  rows := hxorbs ▸ h.rows
  blobs cb hcb := hblobs cb.xorb (h.blobs cb hcb)
  counted := h.counted

/-- **Every accepted upload keeps the log**, and adds the blocks of its shard. -/
theorem BlockLog.step {svc : Service} {log : List ParsedCasBlock} {t t' : ServerState}
    (h : BlockLog log t) {a : ServerAct} (hstep : serverStep svc t a = some t') :
    BlockLog (log ++ casLog [a]) t' := by
  obtain ⟨hacc, rfl⟩ := serverStep_eq_some hstep
  have hkeep := (keeps_handle svc t a.request).blobs
  cases a with
  | xorb r =>
      obtain ⟨res, hup⟩ := hacc
      obtain ⟨-, -, layout, -, hdb, -, -⟩ := uploadXorb_cases hup
      obtain ⟨-, -, hxorbs, hchunks, -⟩ := registerXorbLayout_frame t.db r.hash layout
      have hres : handle svc t (.xorb r) = res.1 := by
        simp only [handle, hup]
      simp only [casLog, List.flatMap_cons, List.flatMap_nil, List.append_nil]
      refine h.of_same ?_ ?_ hkeep <;> simp only [ServerAct.request, hres, hdb]
      · exact hxorbs
      · exact hchunks
  | shard r =>
      obtain ⟨parsed, hcheck, -, -, hres⟩ := accepted_shard hacc
      obtain ⟨hparse, hblocks, -⟩ := checkShard_ok hcheck
      obtain ⟨hxorbs, hchunks, -, -⟩ :=
        registerFiles_frame (registerCasBlocks t.db parsed.casBlocks r.now) r.repo r.files r.now
      have hcas : casLog [.shard r] = parsed.casBlocks := by
        simp only [casLog, List.flatMap_cons, List.flatMap_nil, List.append_nil,
          ShardRequest.casBlocks, hparse]
      rw [hcas]
      have hlog := h.casBlocks hblocks (parse_chunks hparse) r.now
      simp only [ServerAct.request]
      rw [hres]
      exact hlog.of_same hxorbs hchunks (fun _ hx => hx)

theorem run_blockLog {svc : Service} {acts : List ServerAct} {log : List ParsedCasBlock}
    {st t : ServerState} (h : BlockLog log st)
    (hrun : Machine.run (serverStep svc) st acts = some t) : BlockLog (log ++ casLog acts) t := by
  induction acts generalizing st log with
  | nil =>
      obtain rfl : st = t := Option.some.inj hrun
      simpa [casLog] using h
  | cons a acts ih =>
      obtain ⟨s, hs, hrest⟩ := Machine.run_cons_eq_some hrun
      have hsplit : casLog (a :: acts) = casLog [a] ++ casLog acts := by
        simp [casLog]
      rw [hsplit, ← List.append_assoc]
      exact ih (h.step hs) hrest

theorem blockLog_empty : BlockLog [] ServerState.empty := by
  refine ⟨rfl, fun row hrow => ?_, fun cb hcb => ?_, fun cb hcb => ?_, fun cb hcb => ?_⟩
  · simp [ServerState.empty, Db.empty] at hrow
  · simp at hcb
  · simp at hcb
  · simp at hcb

/-! ## Positions -/

/-- The `chunks` rows of a block. -/
def blockRows (cb : ParsedCasBlock) : List ChunkTableRow :=
  (casBlockRows cb).map (fun c => ⟨cb.xorb, c⟩)

theorem casChunkRows_eq (log : List ParsedCasBlock) : casChunkRows log = log.flatMap blockRows := rfl

theorem blockRows_eq (cb : ParsedCasBlock) : blockRows cb = cb.chunks.zipIdx.map (fun ci =>
    ⟨cb.xorb, ci.1.chunkHash, UInt32.ofNat ci.2, ci.1.byteStart, ci.1.unpackedSegmentBytes⟩) := by
  unfold blockRows casBlockRows
  rw [List.map_map]
  rfl

theorem xorbHash_of_mem_blockRows {cb : ParsedCasBlock} {r : ChunkTableRow} (h : r ∈ blockRows cb) :
    r.xorbHash = cb.xorb := by
  obtain ⟨c, -, rfl⟩ := List.mem_map.1 h
  rfl

theorem keys_blockRows (cb : ParsedCasBlock) :
    (blockRows cb).map ChunkTableRow.key = cb.chunks.map (fun e => (e.chunkHash, cb.xorb)) := by
  rw [blockRows_eq, List.map_map]
  refine List.ext_getElem (by simp) (fun i hi _ => ?_)
  simp [ChunkTableRow.key]

/-- The keys of a block's chunks are keys of its rows. -/
theorem key_mem_casChunkRows {log : List ParsedCasBlock} {cb : ParsedCasBlock} (hcb : cb ∈ log)
    {e : CasChunkEntry} (he : e ∈ cb.chunks) :
    ∃ r ∈ casChunkRows log, r.key = (e.chunkHash, cb.xorb) := by
  have hkey : (e.chunkHash, cb.xorb) ∈ (blockRows cb).map ChunkTableRow.key := by
    rw [keys_blockRows]
    exact List.mem_map.2 ⟨e, he, rfl⟩
  obtain ⟨r, hr, hrkey⟩ := List.mem_map.1 hkey
  exact ⟨r, List.mem_flatMap.2 ⟨cb, hcb, hr⟩, hrkey⟩

/-- **The rows of a xorb come from its own blocks.** -/
theorem chunksOfXorb_insertAll (x : XorbHash) (t : List ChunkTableRow) (log : List ParsedCasBlock) :
    chunksOfXorb x (Table.insertAll ChunkTableRow.key t (casChunkRows log)) =
      Table.insertAll ChunkTableRow.key (chunksOfXorb x t)
        (casChunkRows (log.filter (fun cb => decide (cb.xorb = x)))) := by
  have hgroup : ∀ a b : ChunkTableRow, a.key = b.key →
      decide (a.xorbHash = x) = decide (b.xorbHash = x) := by
    intro a b hab
    rw [(Prod.mk.inj hab).2]
  simp only [casChunkRows_eq]
  induction log generalizing t with
  | nil => rfl
  | cons cb log ih =>
      rw [List.flatMap_cons, Table.insertAll_append, ih]
      unfold chunksOfXorb
      by_cases hx : cb.xorb = x
      · have hown : ∀ r ∈ blockRows cb, decide (r.xorbHash = x) = true := by
          intro r hr
          exact decide_eq_true ((xorbHash_of_mem_blockRows hr).trans hx)
        have hkept : (cb :: log).filter (fun cb => decide (cb.xorb = x)) =
            cb :: log.filter (fun cb => decide (cb.xorb = x)) := by
          simp [hx]
        rw [Table.filter_insertAll hgroup hown, hkept, List.flatMap_cons, Table.insertAll_append]
      · have hother : ∀ r ∈ blockRows cb, decide (r.xorbHash = x) = false := by
          intro r hr
          exact decide_eq_false (fun heq => hx ((xorbHash_of_mem_blockRows hr).symm.trans heq))
        have hdropped : (cb :: log).filter (fun cb => decide (cb.xorb = x)) =
            log.filter (fun cb => decide (cb.xorb = x)) := by
          simp [hx]
        rw [Table.filter_insertAll_of_not hother, hdropped]

/-- The first block of a xorb has no chunk twice, and its later blocks have no others. -/
def OneChunkList (log : List ParsedCasBlock) : Prop :=
  ∀ x first, firstBlock x log = some first →
    (first.chunks.map (fun e => e.chunkHash)).Nodup ∧
      ∀ cb ∈ log, cb.xorb = x → ∀ e ∈ cb.chunks,
        e.chunkHash ∈ first.chunks.map (fun e => e.chunkHash)

/-- **With one chunk list, the rows of a xorb are those of its first block.** -/
theorem chunksOfXorb_of_oneChunkList {log : List ParsedCasBlock} (hone : OneChunkList log)
    {x : XorbHash} {first : ParsedCasBlock} (hfirst : firstBlock x log = some first) :
    chunksOfXorb x (Table.insertAll ChunkTableRow.key [] (casChunkRows log)) = blockRows first := by
  obtain ⟨hnodup, hlater⟩ := hone x first hfirst
  obtain ⟨-, hx⟩ := firstBlock_mem hfirst
  unfold firstBlock at hfirst
  rw [← List.head?_filter, List.head?_eq_some_iff] at hfirst
  obtain ⟨later, hlog⟩ := hfirst
  have hown : ∀ cb ∈ later, cb ∈ log ∧ cb.xorb = x := by
    intro cb hcb
    have hmem : cb ∈ log.filter (fun cb => decide (cb.xorb = x)) := by
      rw [hlog]
      exact List.mem_cons_of_mem first hcb
    exact ⟨(List.mem_filter.1 hmem).1, of_decide_eq_true (List.mem_filter.1 hmem).2⟩
  have hkeys : ((blockRows first).map ChunkTableRow.key).Nodup := by
    have hpairs := hnodup.map (f := fun h => (h, first.xorb)) (fun a b hab => (Prod.mk.inj hab).1)
    rw [List.map_map] at hpairs
    rw [keys_blockRows]
    exact hpairs
  have hrows : Table.insertAll ChunkTableRow.key [] (blockRows first) = blockRows first := by
    rw [Table.insertAll_of_fresh hkeys (by simp), List.nil_append]
  rw [chunksOfXorb_insertAll, hlog, casChunkRows_eq, List.flatMap_cons, Table.insertAll_append]
  -- the first block fills the empty group, and the later ones find their keys taken
  show Table.insertAll ChunkTableRow.key (Table.insertAll ChunkTableRow.key [] (blockRows first))
    (later.flatMap blockRows) = blockRows first
  rw [hrows]
  refine Table.insertAll_of_taken (fun r hr => ?_)
  obtain ⟨cb, hcb, hr⟩ := List.mem_flatMap.1 hr
  obtain ⟨hin, hcbx⟩ := hown cb hcb
  have hkey := List.mem_map_of_mem (f := ChunkTableRow.key) hr
  rw [keys_blockRows] at hkey ⊢
  obtain ⟨e, he, heq⟩ := List.mem_map.1 hkey
  obtain ⟨e', he', hsame⟩ := List.mem_map.1 (hlater cb hin hcbx e he)
  refine List.mem_map.2 ⟨e', he', ?_⟩
  rw [← heq, hcbx, hx, hsame]

/-- The rows of a block are in the only order of their indexes. -/
theorem sort_blockRows {sort : List ChunkTableRow → List ChunkTableRow} (hsort : OrderByIndex sort)
    {cb : ParsedCasBlock} (hcount : cb.chunks.length < 4294967296) :
    sort (blockRows cb) = blockRows cb := by
  have hindex : ∀ i (hi : i < (blockRows cb).length),
      (blockRows cb)[i].chunk.chunkIndex.toNat = i := by
    intro i hi
    have hlt : i < 4294967296 := by
      rw [blockRows_eq, List.length_map, List.length_zipIdx] at hi
      omega
    simp only [blockRows_eq, List.getElem_map, List.getElem_zipIdx, Nat.zero_add]
    exact UInt32.toNat_ofNat_of_lt' hlt
  refine List.Perm.eq_of_pairwise (fun a b ha hb hab hba => ?_) (hsort.sorted _) ?_ (hsort.perm _)
  · obtain ⟨i, hi, rfl⟩ := List.getElem_of_mem ((hsort.perm _).subset ha)
    obtain ⟨j, hj, rfl⟩ := List.getElem_of_mem hb
    have hij : i = j := by
      have heq : (blockRows cb)[i].chunk.chunkIndex = (blockRows cb)[j].chunk.chunkIndex :=
        UInt32.le_antisymm hab hba
      rw [← hindex i hi, ← hindex j hj, heq]
    subst hij
    rfl
  · rw [List.pairwise_iff_getElem]
    intro i j hi hj hij
    rw [UInt32.le_iff_toNat_le, hindex i hi, hindex j hj]
    exact Nat.le_of_lt hij

/-- A block keeps the positions of the chunks that its xorb was registered with, and their number is
    the recorded one. -/
structure KeepsPositions (wrapChunkHash : ChunkHash → Hash32 → ChunkHash) (hmacKey : Hash32)
    (db : Db) (log : List ParsedCasBlock) (b : ParsedCasBlock) : Prop where
  recorded : ∃ row ∈ db.xorbs, row.info.xorb = b.xorb ∧ b.chunks.length = row.info.numChunks.toNat
  entries : ∃ first, firstBlock b.xorb log = some first ∧
    ∀ i : Nat, b.chunks[i]? = (first.chunks[i]?).map (wrapEntry wrapChunkHash hmacKey)

theorem dedupBlock_chunks (wrapChunkHash : ChunkHash → Hash32 → ChunkHash) (hmacKey : Hash32)
    {db : Db} {sort : List ChunkTableRow → List ChunkTableRow} (hsort : OrderByIndex sort)
    {x : XorbInfo} {first : ParsedCasBlock} (hcount : first.chunks.length < 4294967296)
    (hrows : chunksOfXorb x.xorb db.chunks = blockRows first) :
    (dedupBlock wrapChunkHash db sort hmacKey x).chunks =
      first.chunks.map (wrapEntry wrapChunkHash hmacKey) := by
  simp only [dedupBlock, Db.xorbChunkOffsets, hrows, sort_blockRows hsort hcount]
  rw [blockRows_eq, List.map_map, List.map_map]
  refine List.ext_getElem (by simp) (fun i hi _ => ?_)
  simp

/-- **With one chunk list, every answer keeps positions.** -/
theorem BlockLog.keepsPositions {log : List ParsedCasBlock} {t : ServerState} (hlog : BlockLog log t)
    (hone : OneChunkList log) {wrapChunkHash : ChunkHash → Hash32 → ChunkHash} {hmacKey : Hash32}
    {sort : List ChunkTableRow → List ChunkTableRow} (hsort : OrderByIndex sort) {row : XorbRow}
    (hrow : row ∈ t.db.xorbs) :
    KeepsPositions wrapChunkHash hmacKey t.db log
      (dedupBlock wrapChunkHash t.db sort hmacKey row.info) := by
  obtain ⟨first, hfirst, hcount⟩ := hlog.recorded row hrow
  have hsmall := hlog.counted first (firstBlock_mem hfirst).1
  have hrows : chunksOfXorb row.info.xorb t.db.chunks = blockRows first := by
    rw [hlog.chunks]
    exact chunksOfXorb_of_oneChunkList hone hfirst
  have hchunks := dedupBlock_chunks wrapChunkHash hmacKey hsort hsmall hrows
  refine ⟨⟨row, hrow, rfl, ?_⟩, first, hfirst, fun i => ?_⟩
  · rw [hchunks, List.length_map, hcount]
    exact (UInt32.toNat_ofNat_of_lt' hsmall).symm
  · rw [hchunks, List.getElem?_map]

/-- A `LIMIT 1` that returns `r` whenever it matches. -/
def preferChunk (r : ChunkTableRow) (rows : List ChunkTableRow) : Option ChunkTableRow :=
  if r ∈ rows then some r else rows.head?

theorem limitOneChunk_preferChunk (r : ChunkTableRow) : LimitOneChunk (preferChunk r) := by
  refine ⟨fun rows r' h => ?_, fun rows hne h => ?_⟩
  · unfold preferChunk at h
    split_ifs at h with hmem
    · rw [← Option.some.inj h]
      exact hmem
    · exact List.mem_of_head? h
  · unfold preferChunk at h
    split_ifs at h
    exact hne (List.head?_eq_none_iff.1 h)

def sortByIndex (rows : List ChunkTableRow) : List ChunkTableRow :=
  Table.orderBy (fun r => r.chunk.chunkIndex.toNat) rows

theorem orderByIndex_sortByIndex : OrderByIndex sortByIndex :=
  ⟨fun rows => List.perm_insertionSort _ rows, fun rows => Table.pairwise_orderBy _ rows⟩

/-- **An answer that keeps positions shows the hashes of the xorb's rows**: they are those of the
    first block. -/
theorem BlockLog.hashes_of_keepsPositions {log : List ParsedCasBlock} {t : ServerState}
    (hlog : BlockLog log t)
    (hkeep : ∀ hmacKey now pick sort c shard, LimitOneChunk pick → OrderByIndex sort →
      getDedupChunk (fun h _ => h) t pick sort hmacKey now c = .ok shard →
      ∀ b ∈ shard.casBlocks, KeepsPositions (fun h _ => h) hmacKey t.db log b)
    {x : XorbHash} {first : ParsedCasBlock} (hfirst : firstBlock x log = some first)
    {r : ChunkTableRow} (hr : r ∈ chunksOfXorb x t.db.chunks) :
    ((chunksOfXorb x t.db.chunks).map (fun r => r.chunk.chunkHash)).Perm
      (first.chunks.map (fun e => e.chunkHash)) := by
  obtain ⟨hin, hx⟩ := firstBlock_mem hfirst
  obtain ⟨hrow, hrx⟩ := List.mem_filter.1 hr
  have hrx : r.xorbHash = x := of_decide_eq_true hrx
  -- ask for the chunk of the row, and let the row be the one that is found
  have hpick : preferChunk r (t.db.chunks.filter (fun r' =>
      decide (r'.chunk.chunkHash = r.chunk.chunkHash))) = some r := by
    unfold preferChunk
    rw [if_pos (List.mem_filter.2 ⟨hrow, decide_eq_true rfl⟩)]
  obtain ⟨shard, hshard⟩ := getDedupChunk_of_row (fun h _ => h) hpick
    (by rw [hrx, ← hx]; exact hlog.rows first hin)
    (by rw [hrx, ← hx]; exact hlog.blobs first hin) sortByIndex (Cursor.hashOf []) 0
  obtain ⟨r', row, hpick', hmem, hrowx, hblocks⟩ := getDedupChunk_ok _ hshard
  obtain rfl : r = r' := Option.some.inj (hpick.symm.trans hpick')
  have hpos := hkeep _ _ _ _ _ _ (limitOneChunk_preferChunk r) orderByIndex_sortByIndex hshard
    _ (by rw [hblocks]; exact List.mem_singleton_self _)
  obtain ⟨first', hfirst', hentries⟩ := hpos.entries
  have hrowx : row.info.xorb = x := hrowx.trans hrx
  obtain rfl : first = first' := by
    simp only [dedupBlock, hrowx, hfirst, Option.some.injEq] at hfirst'
    exact hfirst'
  have hchunks : (dedupBlock (fun h _ => h) t.db sortByIndex (Cursor.hashOf []) row.info).chunks =
      first.chunks.map (wrapEntry (fun h _ => h) (Cursor.hashOf [])) := by
    refine List.ext_getElem? (fun i => ?_)
    rw [hentries i, List.getElem?_map]
  have hhashes := congrArg (List.map (fun e => e.chunkHash)) hchunks
  simp only [dedupBlock, Db.xorbChunkOffsets, hrowx, List.map_map] at hhashes
  have hsorted : (sortByIndex (chunksOfXorb x t.db.chunks)).map (fun r => r.chunk.chunkHash) =
      first.chunks.map (fun e => e.chunkHash) := hhashes
  rw [← hsorted]
  exact ((orderByIndex_sortByIndex.perm _).map _).symm

/-- **When dedup answers keep chunk positions**: exactly when no xorb is registered with a chunk twice
    in its first block, or with a chunk in a later block that the first does not have. -/
theorem dedup_positions_iff (svc : Service) (acts : List ServerAct) (t : ServerState)
    (hrun : Machine.run (serverStep svc) ServerState.empty acts = some t) :
    (∀ wrapChunkHash hmacKey now pick sort c shard, LimitOneChunk pick → OrderByIndex sort →
      getDedupChunk wrapChunkHash t pick sort hmacKey now c = .ok shard →
      ∀ b ∈ shard.casBlocks, KeepsPositions wrapChunkHash hmacKey t.db (casLog acts) b) ↔
    OneChunkList (casLog acts) := by
  have hlog : BlockLog (casLog acts) t := by
    have hlog := run_blockLog blockLog_empty hrun
    rwa [List.nil_append] at hlog
  constructor
  · intro hkeep x first hfirst
    -- the rows of a xorb have different hashes, and one for every chunk of its blocks
    have hnodup : ((chunksOfXorb x t.db.chunks).map (fun r => r.chunk.chunkHash)).Nodup := by
      have hkeys : ((chunksOfXorb x t.db.chunks).map ChunkTableRow.key).Nodup := by
        rw [hlog.chunks]
        exact (Table.nodup_insertAll (by simp)).sublist (List.filter_sublist.map _)
      have hpairs : (chunksOfXorb x t.db.chunks).map ChunkTableRow.key =
          ((chunksOfXorb x t.db.chunks).map (fun r => r.chunk.chunkHash)).map (fun h => (h, x)) := by
        rw [List.map_map]
        refine List.map_congr_left (fun r hr => ?_)
        exact Prod.ext rfl (of_decide_eq_true (List.mem_filter.1 hr).2)
      rw [hpairs] at hkeys
      exact hkeys.of_map
    have hchunk : ∀ cb ∈ casLog acts, cb.xorb = x → ∀ e ∈ cb.chunks,
        e.chunkHash ∈ (chunksOfXorb x t.db.chunks).map (fun r => r.chunk.chunkHash) := by
      intro cb hcb hcbx e he
      obtain ⟨r, hr, hkey⟩ := key_mem_casChunkRows hcb he
      have hin : r.key ∈ (Table.insertAll ChunkTableRow.key []
          (casChunkRows (casLog acts))).map ChunkTableRow.key := Table.key_mem_insertAll hr
      rw [← hlog.chunks, hkey] at hin
      obtain ⟨r', hr', hkey'⟩ := List.mem_map.1 hin
      obtain ⟨hhash, hxorb⟩ := Prod.mk.inj hkey'
      exact List.mem_map.2 ⟨r', List.mem_filter.2 ⟨hr', decide_eq_true (hxorb.trans hcbx)⟩, hhash⟩
    -- without rows no chunk was ever declared; with one, ask for it
    cases hrows : chunksOfXorb x t.db.chunks with
    | nil =>
        rw [hrows] at hchunk
        obtain ⟨hin, hx⟩ := firstBlock_mem hfirst
        have hempty : first.chunks = [] := by
          refine List.eq_nil_iff_forall_not_mem.2 (fun e he => ?_)
          simpa using hchunk first hin hx e he
        refine ⟨by simp [hempty], fun cb hcb hcbx e he => ?_⟩
        simpa using hchunk cb hcb hcbx e he
    | cons r rows =>
        have hmem : r ∈ chunksOfXorb x t.db.chunks := by
          rw [hrows]
          exact List.mem_cons_self
        have hperm := hlog.hashes_of_keepsPositions (hkeep _) hfirst hmem
        refine ⟨hperm.nodup_iff.1 hnodup, fun cb hcb hcbx e he => ?_⟩
        exact hperm.subset (hchunk cb hcb hcbx e he)
  · intro hone wrapChunkHash hmacKey now pick sort c shard _ hsort hget b hb
    obtain ⟨r, row, -, hrow, -, hblocks⟩ := getDedupChunk_ok wrapChunkHash hget
    rw [hblocks, List.mem_singleton] at hb
    rw [hb]
    exact hlog.keepsPositions hone hsort hrow

namespace Sample

/-- A xorb of two chunks of one byte each. -/
def pairUpload (b : UInt8) : XorbRequest :=
  ⟨repo, hash32 0x61, [0, 1, 0, 0, 0, 1, 0, 0, 0x61, 0, 1, 0, 0, 0, 1, 0, 0, b]⟩

/-- The same byte twice, with the shard that registers the chunks. -/
def twiceUploaded : List ServerAct :=
  [.xorb (pairUpload 0x61), .shard ⟨repo, shard [] [casBlock 0x61 [(0x61, 0, 1), (0x61, 1, 1)]], 0⟩]

/-- Two different chunks, registered by two shards. -/
def pairUploaded : List ServerAct :=
  [.xorb (pairUpload 0x62),
    .shard ⟨repo, shard [] [casBlock 0x61 [(0x61, 0, 1), (0x62, 1, 1)]], 0⟩,
    .shard ⟨bob, shard [] [casBlock 0x61 [(0x62, 7, 1)]], 0⟩]

theorem pairUploaded_check : ∀ first ∈ casLog pairUploaded,
    firstBlock first.xorb (casLog pairUploaded) = some first →
      (first.chunks.map (fun e => e.chunkHash)).Nodup ∧
        ∀ cb ∈ casLog pairUploaded, cb.xorb = first.xorb → ∀ e ∈ cb.chunks,
          e.chunkHash ∈ first.chunks.map (fun e => e.chunkHash) := by
  decide +kernel

def byteRow : ChunkTableRow := ⟨hash32 0x61, hash32 0x61, 0, 0, 1⟩

end Sample

/-- **A chunk that occurs twice is read back once**: the block has one entry, for two chunks. -/
theorem repeated_chunk_shifts :
    ¬ ∀ (acts : List ServerAct) (t : ServerState),
      Machine.run (serverStep Sample.service) ServerState.empty acts = some t →
      ∀ wrapChunkHash hmacKey now pick sort c shard, LimitOneChunk pick → OrderByIndex sort →
        getDedupChunk wrapChunkHash t pick sort hmacKey now c = .ok shard →
        ∀ b ∈ shard.casBlocks, KeepsPositions wrapChunkHash hmacKey t.db (casLog acts) b := by
  intro hall
  have hrun : (Machine.run (serverStep Sample.service) ServerState.empty
      Sample.twiceUploaded).map (fun s => (s.db.xorbs.map (fun r => r.info.numChunks.toNat),
        (getDedupChunk (fun h _ => h) s (preferChunk Sample.byteRow) sortByIndex (Sample.hash32 0) 0
          (Sample.hash32 0x61)).toOption.map (fun shard =>
            shard.casBlocks.map (fun b => b.chunks.length)))) = some ([2], some [1]) := by
    decide +kernel
  obtain ⟨t, ht, hseen⟩ := Option.map_eq_some_iff.1 hrun
  obtain ⟨hcounts, hblocks⟩ := Prod.mk.inj hseen
  cases hget : getDedupChunk (fun h _ => h) t (preferChunk Sample.byteRow) sortByIndex
      (Sample.hash32 0) 0 (Sample.hash32 0x61) with
  | error e => simp [hget, Except.toOption] at hblocks
  | ok shard =>
      simp only [hget, Except.toOption, Option.map_some, Option.some.injEq] at hblocks
      have hall := hall _ t ht _ _ _ _ _ _ shard (limitOneChunk_preferChunk Sample.byteRow)
        orderByIndex_sortByIndex hget
      obtain ⟨b, hb, hlen⟩ := List.mem_map.1 (hblocks ▸ List.mem_singleton_self 1)
      obtain ⟨row, hrow, -, hcount⟩ := (hall b hb).recorded
      have htwo : row.info.numChunks.toNat ∈ t.db.xorbs.map (fun r => r.info.numChunks.toNat) :=
        List.mem_map.2 ⟨row, hrow, rfl⟩
      rw [hcounts, List.mem_singleton] at htwo
      omega

/-- A later block with a chunk that the first one has. -/
theorem dedup_positions_iff_pair : ∃ t shard,
    Machine.run (serverStep Sample.service) ServerState.empty Sample.pairUploaded = some t ∧
    getDedupChunk (fun h _ => h) t (preferChunk Sample.byteRow) sortByIndex (Sample.hash32 0) 0
      (Sample.hash32 0x61) = .ok shard ∧ shard.casBlocks.length = 1 ∧
    ∀ b ∈ shard.casBlocks, KeepsPositions (fun h _ => h) (Sample.hash32 0) t.db
      (casLog Sample.pairUploaded) b := by
  have hrun : (Machine.run (serverStep Sample.service) ServerState.empty
      Sample.pairUploaded).map (fun s => (getDedupChunk (fun h _ => h) s
        (preferChunk Sample.byteRow) sortByIndex (Sample.hash32 0) 0
          (Sample.hash32 0x61)).toOption.map (fun shard => shard.casBlocks.length)) =
        some (some 1) := by
    decide +kernel
  obtain ⟨t, ht, hseen⟩ := Option.map_eq_some_iff.1 hrun
  have hone : OneChunkList (casLog Sample.pairUploaded) := by
    intro x first hfirst
    obtain ⟨hmem, rfl⟩ := firstBlock_mem hfirst
    exact Sample.pairUploaded_check first hmem hfirst
  cases hget : getDedupChunk (fun h _ => h) t (preferChunk Sample.byteRow) sortByIndex
      (Sample.hash32 0) 0 (Sample.hash32 0x61) with
  | error e => simp [hget, Except.toOption] at hseen
  | ok shard =>
      simp only [hget, Except.toOption, Option.map_some, Option.some.injEq] at hseen
      exact ⟨t, shard, ht, hget, hseen, (dedup_positions_iff Sample.service Sample.pairUploaded t ht).2
        hone _ _ _ _ _ _ shard (limitOneChunk_preferChunk Sample.byteRow) orderByIndex_sortByIndex
        hget⟩

end BaleForGit.Server
