import BaleForGit.Server.Servable

set_option autoImplicit false

/-! # Reading by hash alone

A token of one repository reads a file if that repository has a `files` row for its hash, and any
accepted shard that declares the hash makes one, whatever list it declares. The terms that are then
served are those of the repository that was first. All that stands in between is that the terms sum
to the total of one `files` row of the hash, which may be that of the other repository. -/

namespace BaleForGit.Server

/-- The shard declares a list of `n` bytes for `h`. -/
def ShardRequest.Declares (r : ShardRequest) (h : FileHash) (n : Nat) : Prop :=
  ∃ parsed, parse r.body = .ok parsed ∧ ∃ f ∈ parsed.files, f.fileHash = h ∧
    (f.entries.map (fun e => e.unpackedSegmentBytes.toNat)).sum = n

theorem fileTerms_fileHash {f : ParsedFile} {g : FileHash × List FileTerm}
    (h : fileTerms f = .ok g) : g.1 = f.fileHash := by
  unfold fileTerms at h
  split_ifs at h
  rw [← Except.ok.inj h]

/-- A hash that is declared is registered, if the shard is accepted. -/
theorem lastList_of_declares {svc : Service} {st : ServerState} {r : ShardRequest} {h : FileHash}
    {n : Nat} (hdecl : r.Declares h n) (hacc : Accepted svc st (.shard r)) :
    ∃ last, lastList h r.files = some last := by
  obtain ⟨parsed, hparse, f, hf, hhash, -⟩ := hdecl
  obtain ⟨parsed', hcheck, hfiles, -, -⟩ := accepted_shard hacc
  rw [(checkShard_ok hcheck).1, Except.ok.injEq] at hparse
  subst hparse
  obtain ⟨g, hg, hterms⟩ := Results.exists_mem_of_mapM hfiles hf
  have hfst := fileTerms_fileHash hterms
  rw [hhash] at hfst
  exact lastList_of_mem (show (h, g.2) ∈ r.files by rw [← hfst]; exact hg)

/-- When a repository that has no row for `h` does not get to read it by declaring it: the shard is
    rejected, the terms cannot be served to anyone, or no total recorded for `h` is their sum. -/
def HashUseless (svc : Service) (st : ServerState) (r : ShardRequest) (h : FileHash) : Prop :=
  ¬ PassesChecks svc st r ∨
    (∃ t ∈ st.db.fileTermList h, ¬ InFrames (st.db.xorbFrameLayout t.xorb) t) ∨
    ((∀ last, lastList h r.files = some last → termSum last ≠ termSum (st.db.fileTermList h)) ∧
      ∀ row ∈ st.db.files, row.fileHash = h →
        row.totalBytes ≠ termSum (st.db.fileTermList h))

section Accepted

variable {svc : Service} {st : ServerState} {r : ShardRequest} {h : FileHash} {last : List FileTerm}

/-- The rows of the hash after the shard: those of others, and its own. -/
theorem mem_files_shard (hacc : Accepted svc st (.shard r)) (hlast : lastList h r.files = some last)
    (hforeign : ∀ row ∈ st.db.files, row.fileHash = h → row.repo.repoId ≠ r.repo.repoId)
    {row : FileRow} (hrow : row.fileHash = h) :
    row ∈ (handle svc st (.shard r)).db.files ↔
      row = fileRow h r.repo last r.now ∨ row ∈ st.db.files := by
  obtain ⟨parsed, -, -, -, hres⟩ := accepted_shard hacc
  obtain ⟨hfiles, -, -, -⟩ := registerCasBlocks_frame st.db parsed.casBlocks r.now
  rw [hres]
  simp only
  rw [mem_files_registerFiles _ r.repo r.now hrow, hlast, hfiles]
  exact or_congr_right ⟨fun hin => hin.1, fun hin => ⟨hin, hforeign row hin hrow⟩⟩

theorem fileTermList_shard (hacc : Accepted svc st (.shard r))
    (hlast : lastList h r.files = some last) (hterms : st.db.fileTermList h ≠ []) :
    (handle svc st (.shard r)).db.fileTermList h = st.db.fileTermList h := by
  obtain ⟨-, -, hlist, -, -⟩ := shard_read_tables hacc hlast
  rw [hlist]
  unfold termsAfter
  rw [if_neg hterms]

/-- **The terms of others are served** when they are within their frames and some row of the hash
    has their sum. -/
theorem foreign_served_iff (hacc : Accepted svc st (.shard r))
    (hlast : lastList h r.files = some last) (hterms : st.db.fileTermList h ≠ []) :
    (∃ pick, LimitOne pick ∧ ∃ resp,
        getReconstruction (handle svc st (.shard r)).db pick r.repo.repoId h = .ok resp) ↔
      (∀ t ∈ st.db.fileTermList h, InFrames (st.db.xorbFrameLayout t.xorb) t) ∧
        ∃ row ∈ (handle svc st (.shard r)).db.files, row.fileHash = h ∧
          row.totalBytes = termSum (st.db.fileTermList h) := by
  obtain ⟨-, hlayout, -, hrepo, -⟩ := shard_read_tables hacc hlast
  have hkept := fileTermList_shard hacc hlast hterms
  constructor
  · rintro ⟨pick, hpick, resp, hresp⟩
    obtain ⟨-, terms, hlookup, hin, -⟩ := getReconstruction_eq_ok.1 hresp
    obtain ⟨hsame, -, htotal⟩ := lookupFile_eq_some.1 hlookup
    rw [hkept] at hsame
    subst hsame
    refine ⟨fun t ht => hlayout t.xorb ▸ hin t ht, ?_⟩
    unfold Db.fileInRepo at hrepo
    obtain ⟨own, hown, hsame⟩ := List.any_eq_true.1 hrepo
    rw [Bool.and_eq_true] at hsame
    -- the row of the reading repository is there, so the lookup has found some row of the hash
    cases hfound : pick ((handle svc st (.shard r)).db.files.filter
        (fun row => decide (row.fileHash = h))) with
    | none =>
        have hmem : own ∈ (handle svc st (.shard r)).db.files.filter
            (fun row => decide (row.fileHash = h)) := List.mem_filter.2 ⟨hown, hsame.1⟩
        exact absurd hfound (hpick.nonempty _ (List.ne_nil_of_mem hmem))
    | some row =>
        obtain ⟨hmem, hhash⟩ := List.mem_filter.1 (hpick.mem _ row hfound)
        exact ⟨row, hmem, of_decide_eq_true hhash, htotal row hfound⟩
  · rintro ⟨hin, row, hmem, hhash, htotal⟩
    -- the engine may return the row whose total matches
    refine ⟨preferRow row, limitOne_preferRow row,
      reconstruction (handle svc st (.shard r)).db (st.db.fileTermList h), ?_⟩
    refine getReconstruction_eq_ok.2 ⟨hrepo, st.db.fileTermList h, ?_, ?_, rfl⟩
    · refine lookupFile_eq_some.2 ⟨hkept, hterms, fun row' hrow' => ?_⟩
      unfold preferRow at hrow'
      rw [if_pos (List.mem_filter.2 ⟨hmem, decide_eq_true hhash⟩), Option.some.injEq] at hrow'
      rw [← hrow']
      exact htotal
    · intro t ht
      rw [hlayout]
      exact hin t ht

end Accepted

namespace Sample

/-- The file `hash32 1` without any terms. -/
def emptyFile : ShardRequest := ⟨bob, shard [file 1 []] [], 0⟩

/-- The file `hash32 1` as a chunk of a xorb that is not there. -/
def missingFile : ShardRequest := ⟨bob, shard [file 1 [(0x63, 2, 0, 1)]] [], 0⟩

/-- `alice` registers her file again, without terms: the total of her row is 0 from then on. -/
def emptied : List Request := fileUploaded ++ [.shard ⟨repo, shard [file 1 []] [], 0⟩]

/-- The file `hash32 1` as the stored chunk, with a length of two bytes declared for it. -/
def longFile : ShardRequest := ⟨bob, shard [file 1 [(0x61, 2, 0, 1)]] [], 0⟩

theorem declares_of_check {r : ShardRequest} {h : FileHash} {n : Nat}
    (hcheck : (parse r.body).toOption.any (fun parsed => parsed.files.any (fun f =>
      decide (f.fileHash = h) &&
        decide ((f.entries.map (fun e => e.unpackedSegmentBytes.toNat)).sum = n))) = true) :
    r.Declares h n := by
  cases hparse : parse r.body with
  | error e => simp [hparse, Except.toOption] at hcheck
  | ok parsed =>
      simp only [hparse, Except.toOption, Option.any_some, List.any_eq_true, Bool.and_eq_true,
        decide_eq_true_eq] at hcheck
      exact ⟨parsed, hparse, hcheck⟩

end Sample

end BaleForGit.Server
