import BaleForGit.Library.Tasks
import BaleForGit.Server.FsStore

set_option autoImplicit false

/-! # What the blob store on a file system holds

Every file at the path of a hash is, from the moment it appears, the whole body of a put of that
hash: nobody writes to it any more, and it was synced before it got there. So it is whole after a
crash too (`Disk.crash_shows`), and for whoever has it open. `Effect` says what one call of one put
does; `Inv` follows from it. -/

namespace BaleForGit.Server.FsStore

open Disk (Shows Stays Closed Kept)

/-! ## Paths -/

theorem digitChar_inj : ∀ m < 16, ∀ n < 16, Nat.digitChar m = Nat.digitChar n → m = n := by decide

theorem hexDigits_inj {bs cs : List UInt8}
    (h : bs.flatMap (fun b => [Nat.digitChar (b.toNat / 16), Nat.digitChar (b.toNat % 16)]) =
      cs.flatMap (fun b => [Nat.digitChar (b.toNat / 16), Nat.digitChar (b.toNat % 16)])) :
    bs = cs := by
  induction bs generalizing cs with
  | nil =>
      cases cs with
      | nil => rfl
      | cons c cs => cases h
  | cons b bs ih =>
      cases cs with
      | nil => cases h
      | cons c cs =>
          simp only [List.flatMap_cons, List.cons_append, List.nil_append, List.cons.injEq] at h
          obtain ⟨hhi, hlo, hrest⟩ := h
          have hb := b.toNat_lt
          have hc := c.toNat_lt
          have hhi := digitChar_inj _ (by omega) _ (by omega) hhi
          have hlo := digitChar_inj _ (by omega) _ (by omega) hlo
          rw [ih hrest, UInt8.toNat_inj.1 (by omega : b.toNat = c.toNat)]

theorem debug_inj {h h' : Hash32} (heq : h.debug = h'.debug) : h = h' := by
  obtain ⟨bytes, hlen⟩ := h
  obtain ⟨bytes', hlen'⟩ := h'
  unfold Hash32.debug at heq
  obtain rfl := hexDigits_inj (String.ofList_injective heq)
  rfl

/-- Two blobs are never at one path. -/
theorem fanout_inj {name name' : BlobName} (h : fanout name = fanout name') : name = name' := by
  obtain ⟨kind, hash⟩ := name
  obtain ⟨kind', hash'⟩ := name'
  simp only [fanout, List.cons.injEq, and_true] at h
  obtain ⟨hkind, -, -, hhash⟩ := h
  obtain rfl := debug_inj hhash
  cases kind <;> cases kind' <;> first | rfl | exact absurd hkind (by decide)

theorem fanout_ne_tmp (name : BlobName) (uuid : String) : fanout name ≠ tmpPath uuid := by
  intro h
  simpa [fanout, tmpPath] using congrArg List.length h

theorem fanout_ne_nil (name : BlobName) : fanout name ≠ [] := by
  simp [fanout]

/-- No blob is where directories are made for one. -/
theorem fanout_not_above (name : BlobName) {p : Path} (hp : p.length < 4) : ¬ fanout name <+: p := by
  intro h
  have hlen := h.length_le
  have hfour : (fanout name).length = 4 := rfl
  omega

theorem length_parent (name : BlobName) : (fanout name).dropLast.length = 3 := rfl

theorem tmp_not_above (name : BlobName) (uuid : String) (k : Nat) :
    ¬ tmpPath uuid <+: ((fanout name).dropLast).take k := by
  intro h
  have hdir : name.kind.dir = "tmp" := by
    have hpre : tmpPath uuid <+: fanout name := (h.trans (List.take_prefix _ _)).trans
      (List.dropLast_prefix _)
    obtain ⟨t, ht⟩ := hpre
    simp only [tmpPath, fanout, List.cons_append, List.cons.injEq] at ht
    exact ht.1.symm
  cases hkind : name.kind <;> rw [hkind] at hdir <;> exact absurd hdir (by decide)

/-! ## One call of a put -/

/-- The temporary file that a put works on. -/
def PutPhase.holds : PutPhase → Option (Path × Nat)
  | .write tmp i _ => some (tmp, i)
  | .sync tmp i => some (tmp, i)
  | .rename tmp i => some (tmp, i)
  | .recheck tmp i _ => some (tmp, i)
  | .removeTmp tmp i _ => some (tmp, i)
  | _ => none

/-- The file is at its temporary path. -/
def Holds (fs : FileSystem) (tmp : Path) (i : Nat) : Prop :=
  (∃ uuid, tmp = tmpPath uuid) ∧ i < fs.fresh ∧ fs.entries tmp = some (.file i)

/-- A put that is answered `Ok` finds its blob. -/
def Answered (fs : FileSystem) (name : BlobName) (answer : CoreResult Bool) : Prop :=
  ∀ b, answer = .ok b → fs.entries (fanout name) ≠ none

/-- What a put has done so far. -/
def Writer.Ok (fs : FileSystem) (w : Writer) : Prop :=
  match w.phase with
  | .stat => True
  | .mkdir => True
  | .create => True
  | .write tmp i rest => Holds fs tmp i ∧ (fs.inodes i).data ++ rest = w.put.body
  | .sync tmp i => Holds fs tmp i ∧ (fs.inodes i).data = w.put.body
  | .rename tmp i => Holds fs tmp i ∧ fs.inodes i = ⟨w.put.body, true⟩
  | .recheck tmp i _ => Holds fs tmp i
  | .syncDir => fs.entries (fanout w.put.name) ≠ none
  | .removeTmp tmp i answer => Holds fs tmp i ∧ Answered fs w.put.name answer
  | .done answer => Answered fs w.put.name answer

theorem Writer.Ok.holds {fs : FileSystem} {w : Writer} (h : w.Ok fs) {tmp : Path} {i : Nat}
    (hholds : w.phase.holds = some (tmp, i)) : Holds fs tmp i := by
  unfold Writer.Ok at h
  cases hphase : w.phase <;> rw [hphase] at h hholds <;> cases hholds
  case write => exact h.1
  case sync => exact h.1
  case rename => exact h.1
  case recheck => exact h
  case removeTmp => exact h.1

/-- The blob of the put appears. -/
structure Lands (fs fs' : FileSystem) (w : Writer) (i : Nat) : Prop where
  held : ∃ tmp, w.phase.holds = some (tmp, i)
  whole : fs.inodes i = ⟨w.put.body, true⟩
  inodes : fs'.inodes = fs.inodes
  entry : fs'.entries (fanout w.put.name) = some (.file i)
  past : ∀ v ∈ fs'.past (fanout w.put.name),
    v = fs.entries (fanout w.put.name) ∨ v ∈ fs.past (fanout w.put.name)

/-- What one call of a put does to the files, and to none else. -/
structure Effect (fs fs' : FileSystem) (w : Writer) (phase : PutPhase) : Prop where
  closed : Closed fs'
  fresh : fs.fresh ≤ fs'.fresh
  inodes : ∀ j < fs.fresh, (∀ tmp, w.phase.holds ≠ some (tmp, j)) → fs'.inodes j = fs.inodes j
  tmps : ∀ uuid, fs.entries (tmpPath uuid) ≠ none →
    (∀ i, w.phase.holds ≠ some (tmpPath uuid, i)) →
    fs'.entries (tmpPath uuid) = fs.entries (tmpPath uuid)
  others : ∀ name, name ≠ w.put.name → Stays fs fs' (fanout name)
  own : Stays fs fs' (fanout w.put.name) ∨ phase.holds = none ∧ ∃ i, Lands fs fs' w i
  holds : phase.holds = w.phase.holds ∨ phase.holds = none ∨
    ∃ uuid, phase.holds = some (tmpPath uuid, fs.fresh) ∧ fs.entries (tmpPath uuid) = none
  ok : (Writer.mk w.put phase).Ok fs'

section Next

variable {display : Path → String} {fs fs' : FileSystem} {w : Writer} {c : Choice} {phase : PutPhase}

/-- Nothing happens to the files, and the put lets go of its own, or keeps it. -/
theorem Effect.idle (hclosed : Closed fs)
    (hholds : phase.holds = w.phase.holds ∨ phase.holds = none)
    (hok : (Writer.mk w.put phase).Ok fs) : Effect fs fs w phase where
  closed := hclosed
  fresh := le_rfl
  inodes := fun _ _ _ => rfl
  tmps := fun _ _ _ => rfl
  others := fun name _ => Stays.refl fs (fanout name)
  own := Or.inl (Stays.refl fs _)
  holds := hholds.imp_right Or.inl
  ok := hok

/-- Directories are made. -/
theorem Effect.mkdirs (hclosed : Closed fs) {k : Nat}
    (hmk : Disk.mkdirAll fs ((fanout w.put.name).dropLast.take k) = some fs')
    (hholds : phase.holds = none) (hok : (Writer.mk w.put phase).Ok fs') :
    Effect fs fs' w phase where
  closed := hclosed.mkdirAll hmk
  fresh := (Disk.mkdirAll_inodes hmk).2.ge
  inodes := fun j _ _ => by rw [(Disk.mkdirAll_inodes hmk).1]
  tmps := fun uuid _ _ => (Disk.mkdirAll_stays hmk (tmp_not_above _ uuid k)).entries
  others := fun name _ => Disk.mkdirAll_stays hmk (fanout_not_above name (by
    rw [List.length_take, length_parent]
    omega))
  own := Or.inl (Disk.mkdirAll_stays hmk (fanout_not_above _ (by
    rw [List.length_take, length_parent]
    omega)))
  holds := Or.inr (Or.inl hholds)
  ok := hok

/-- The inode that the put holds is set. -/
theorem Effect.setInode (hclosed : Closed fs) {tmp : Path} {i : Nat} {node : Disk.Inode UInt8}
    (hheld : w.phase.holds = some (tmp, i)) (hholds : phase.holds = w.phase.holds)
    (hok : (Writer.mk w.put phase).Ok (Disk.setInode fs i node)) :
    Effect fs (Disk.setInode fs i node) w phase where
  closed := hclosed.congr rfl
  fresh := le_rfl
  inodes := fun j _ hj => if_neg (fun heq => hj tmp (by rw [hheld, heq]))
  tmps := fun _ _ _ => rfl
  others := fun name _ => Disk.stays_setInode fs i node _
  own := Or.inl (Disk.stays_setInode fs i node _)
  holds := Or.inl hholds
  ok := hok

/-- The put lets go of its file. -/
theorem Effect.removeTmp (hclosed : Closed fs) {tmp : Path} {i : Nat}
    (hheld : w.phase.holds = some (tmp, i)) (htmp : ∃ uuid, tmp = tmpPath uuid)
    (hrm : Disk.remove fs tmp = some fs') (hholds : phase.holds = none)
    (hok : (Writer.mk w.put phase).Ok fs') : Effect fs fs' w phase := by
  obtain ⟨uuid, rfl⟩ := htmp
  obtain ⟨hinodes, hfresh, hstays⟩ := Disk.remove_spec hrm
  refine ⟨hclosed.remove hrm, hfresh.ge, fun j _ _ => by rw [hinodes], fun u _ hu => ?_,
    fun name _ => hstays _ (fanout_ne_tmp name uuid), Or.inl (hstays _ (fanout_ne_tmp _ uuid)),
    Or.inr (Or.inl hholds), hok⟩
  refine (hstays _ ?_).entries
  rintro heq
  exact hu i (by rw [hheld, heq])

/-- A file of its own. -/
theorem Effect.create (hclosed : Closed fs) {uuid : String} {i : Nat}
    (hnew : Disk.createNew fs (tmpPath uuid) = some (fs', i))
    (hholds : phase.holds = some (tmpPath uuid, i)) (hok : (Writer.mk w.put phase).Ok fs') :
    Effect fs fs' w phase := by
  have h := Disk.createNew_spec hnew
  refine ⟨hclosed.createNew hnew, by rw [h.fresh]; omega, fun j hj _ => h.others j ?_,
    fun u hu _ => (h.stays _ ?_).entries, fun name _ => h.stays _ (fanout_ne_tmp name uuid),
    Or.inl (h.stays _ (fanout_ne_tmp _ uuid)), Or.inr (Or.inr ⟨uuid, ?_, h.free⟩), hok⟩
  · rw [h.inode]
    omega
  · rintro heq
    rw [heq] at hu
    exact hu h.free
  · rw [hholds, h.inode]

/-- The put moves its file to where it belongs. -/
theorem Effect.rename (hclosed : Closed fs) {tmp : Path} {i : Nat}
    (hheld : w.phase.holds = some (tmp, i)) (hfile : Holds fs tmp i)
    (hwhole : fs.inodes i = ⟨w.put.body, true⟩)
    (hmv : Disk.rename fs tmp (fanout w.put.name) = some fs') :
    Effect fs fs' w .syncDir := by
  obtain ⟨⟨uuid, rfl⟩, -, hentry⟩ := hfile
  have hne := Ne.symm (fanout_ne_tmp w.put.name uuid)
  obtain ⟨i', h⟩ := Disk.rename_spec hne hmv
  have hi : i' = i := by
    have hsource := h.source
    rw [hentry] at hsource
    exact (Disk.Node.file.inj (Option.some.inj hsource)).symm
  subst hi
  refine ⟨hclosed.rename hmv, h.fresh.ge, fun j _ _ => by rw [h.inodes], fun u _ hu => ?_,
    fun name hname => h.stays _ (fanout_ne_tmp name uuid) (fun heq => hname (fanout_inj heq)),
    Or.inr ⟨rfl, i', ⟨_, hheld⟩, hwhole, h.inodes, h.entry, h.past⟩, Or.inr (Or.inl rfl), ?_⟩
  · refine (h.stays _ ?_ (Ne.symm (fanout_ne_tmp _ u))).entries
    rintro heq
    exact hu i' (by rw [hheld, heq])
  · change fs'.entries (fanout w.put.name) ≠ none
    rw [h.entry]
    simp

/-- **What one call of a put does.** -/
theorem effect_next (hclosed : Closed fs) (hok : w.Ok fs) (hnext : w.next display fs c = (fs', phase)) :
    Effect fs fs' w phase := by
  obtain ⟨put, current⟩ := w
  cases current with
  | stat =>
      simp only [Writer.next] at hnext
      split_ifs at hnext with hthere
      · obtain ⟨rfl, rfl⟩ := Prod.mk.inj hnext
        refine Effect.idle hclosed (Or.inl rfl) (fun b _ => ?_)
        exact Option.isSome_iff_ne_none.1 (Bool.and_eq_true_iff.1 hthere).2
      · obtain ⟨rfl, rfl⟩ := Prod.mk.inj hnext
        exact Effect.idle hclosed (Or.inl rfl) trivial
  | mkdir =>
      simp only [Writer.next] at hnext
      have hrefused (e : String) : (Writer.mk put (.done (.error (.internal
          ("mkdir " ++ display (fanout put.name).dropLast ++ ": " ++ e))))).Ok fs' :=
        fun b hb => by cases hb
      split at hnext
      · obtain ⟨hfs, rfl⟩ := Prod.mk.inj hnext
        cases hmk : Disk.mkdirAll fs ((fanout put.name).dropLast.take c.count) with
        | none =>
            rw [hmk, Option.getD_none] at hfs
            subst hfs
            exact Effect.idle hclosed (Or.inl rfl) (hrefused _)
        | some t =>
            rw [hmk, Option.getD_some] at hfs
            subst hfs
            exact Effect.mkdirs hclosed hmk rfl (hrefused _)
      · split at hnext
        · rename_i t hmk
          obtain ⟨rfl, rfl⟩ := Prod.mk.inj hnext
          rw [← List.take_length (l := (fanout put.name).dropLast)] at hmk
          exact Effect.mkdirs hclosed hmk rfl trivial
        · obtain ⟨rfl, rfl⟩ := Prod.mk.inj hnext
          exact Effect.idle hclosed (Or.inl rfl) (hrefused _)
  | create =>
      simp only [Writer.next] at hnext
      split at hnext
      · obtain ⟨rfl, rfl⟩ := Prod.mk.inj hnext
        exact Effect.idle hclosed (Or.inl rfl) (fun b hb => by cases hb)
      · split at hnext
        · rename_i t i hnew
          obtain ⟨rfl, rfl⟩ := Prod.mk.inj hnext
          have h := Disk.createNew_spec hnew
          refine Effect.create hclosed hnew rfl ⟨⟨⟨_, rfl⟩, ?_, h.entry⟩, ?_⟩
          · rw [h.fresh, h.inode]
            exact Nat.lt_succ_self _
          · rw [h.new]
            rfl
        · obtain ⟨rfl, rfl⟩ := Prod.mk.inj hnext
          exact Effect.idle hclosed (Or.inl rfl) (fun b hb => by cases hb)
  | write tmp i rest =>
      obtain ⟨hfile, hdata⟩ := hok
      simp only [Writer.next, Disk.append] at hnext
      have hfile' (node : Disk.Inode UInt8) : Holds (Disk.setInode fs i node) tmp i := hfile
      split at hnext
      · obtain ⟨rfl, rfl⟩ := Prod.mk.inj hnext
        exact Effect.setInode hclosed rfl rfl ⟨hfile' _, fun b hb => by cases hb⟩
      · have hwritten : ((fs.inodes i).data ++ rest.take c.count) ++ rest.drop c.count =
            put.body := by
          rw [List.append_assoc, List.take_append_drop]
          exact hdata
        split_ifs at hnext with hend
        · obtain ⟨rfl, rfl⟩ := Prod.mk.inj hnext
          rw [hend, List.append_nil] at hwritten
          refine Effect.setInode hclosed rfl rfl ⟨hfile' _, ?_⟩
          rw [Disk.inodes_setInode_self]
          exact hwritten
        · obtain ⟨rfl, rfl⟩ := Prod.mk.inj hnext
          refine Effect.setInode hclosed rfl rfl ⟨hfile' _, ?_⟩
          rw [Disk.inodes_setInode_self]
          exact hwritten
  | sync tmp i =>
      obtain ⟨hfile, hdata⟩ := hok
      simp only [Writer.next, Disk.sync] at hnext
      split at hnext
      · obtain ⟨rfl, rfl⟩ := Prod.mk.inj hnext
        exact Effect.idle hclosed (Or.inl rfl) ⟨hfile, fun b hb => by cases hb⟩
      · obtain ⟨rfl, rfl⟩ := Prod.mk.inj hnext
        refine Effect.setInode hclosed rfl rfl ⟨hfile, ?_⟩
        rw [Disk.inodes_setInode_self, hdata]
  | rename tmp i =>
      obtain ⟨hfile, hwhole⟩ := hok
      simp only [Writer.next] at hnext
      split at hnext
      · obtain ⟨rfl, rfl⟩ := Prod.mk.inj hnext
        exact Effect.idle hclosed (Or.inl rfl) hfile
      · split at hnext
        · rename_i t hmv
          obtain ⟨rfl, rfl⟩ := Prod.mk.inj hnext
          exact Effect.rename hclosed rfl hfile hwhole hmv
        · obtain ⟨rfl, rfl⟩ := Prod.mk.inj hnext
          exact Effect.idle hclosed (Or.inl rfl) hfile
  | recheck tmp i e =>
      simp only [Writer.next] at hnext
      split_ifs at hnext with hthere
      · obtain ⟨rfl, rfl⟩ := Prod.mk.inj hnext
        refine Effect.idle hclosed (Or.inl rfl) ⟨hok, fun b _ => ?_⟩
        exact Option.isSome_iff_ne_none.1 (Bool.and_eq_true_iff.1 hthere).2
      · obtain ⟨rfl, rfl⟩ := Prod.mk.inj hnext
        exact Effect.idle hclosed (Or.inl rfl) ⟨hok, fun b hb => by cases hb⟩
  | syncDir =>
      simp only [Writer.next] at hnext
      split at hnext
      · obtain ⟨rfl, rfl⟩ := Prod.mk.inj hnext
        exact Effect.idle hclosed (Or.inl rfl) (fun b _ => hok)
      · obtain ⟨rfl, rfl⟩ := Prod.mk.inj hnext
        exact ⟨hclosed.congr rfl, le_rfl, fun _ _ _ => rfl, fun _ _ _ => rfl,
          fun name _ => Disk.stays_syncDir fs _ _, Or.inl (Disk.stays_syncDir fs _ _),
          Or.inl rfl, fun b _ => hok⟩
  | removeTmp tmp i answer =>
      obtain ⟨hfile, hanswer⟩ := hok
      simp only [Writer.next] at hnext
      split at hnext
      · obtain ⟨rfl, rfl⟩ := Prod.mk.inj hnext
        exact Effect.idle hclosed (Or.inr rfl) hanswer
      · obtain ⟨hfs, rfl⟩ := Prod.mk.inj hnext
        cases hrm : Disk.remove fs tmp with
        | none =>
            rw [hrm, Option.getD_none] at hfs
            subst hfs
            exact Effect.idle hclosed (Or.inr rfl) hanswer
        | some t =>
            rw [hrm, Option.getD_some] at hfs
            subst hfs
            refine Effect.removeTmp hclosed rfl hfile.1 hrm rfl (fun b hb => ?_)
            obtain ⟨uuid, rfl⟩ := hfile.1
            rw [((Disk.remove_spec hrm).2.2 _ (fanout_ne_tmp _ uuid)).entries]
            exact hanswer b hb
  | done answer =>
      obtain ⟨rfl, rfl⟩ := Prod.mk.inj hnext
      exact Effect.idle hclosed (Or.inl rfl) hok

end Next

/-! ## The whole store -/

/-- The inode is a whole blob, and nobody writes to it. -/
structure Blob (s : Site) (name : BlobName) (i : Nat) : Prop where
  old : i < s.fs.fresh
  free : ∀ w ∈ s.writers, ∀ tmp, w.phase.holds ≠ some (tmp, i)
  synced : (s.fs.inodes i).synced = true
  whole : ∃ p ∈ s.asked, p.name = name ∧ (s.fs.inodes i).data = p.body

/-- Two puts do not work on one file. -/
def Apart (w w' : Writer) : Prop :=
  ∀ tmp i tmp' i', w.phase.holds = some (tmp, i) → w'.phase.holds = some (tmp', i') →
    tmp ≠ tmp' ∧ i ≠ i'

/-- What a range of a blob is. -/
def rangeOf (body : List UInt8) (start stop : Nat) : CoreResult (List UInt8) :=
  if start > body.length then .error (.badRequest "range start past end")
  else .ok ((body.take stop).drop start)

def Want.of (body : List UInt8) : Want → CoreResult (List UInt8)
  | .range start stop => rangeOf body start stop
  | .whole => .ok body

/-- What a read has done so far. -/
def Reader.Ok (s : Site) (r : Reader) : Prop :=
  match r.phase with
  | .opening => True
  | .stat i => Blob s r.name i
  | .seek i stop => Blob s r.name i ∧ ∃ start stop', r.want = .range start stop' ∧
      start ≤ (s.fs.inodes i).data.length ∧ stop = min stop' (s.fs.inodes i).data.length
  | .read i stop => Blob s r.name i ∧ ∃ start stop', r.want = .range start stop' ∧
      start ≤ (s.fs.inodes i).data.length ∧ stop = min stop' (s.fs.inodes i).data.length
  | .readAll i => Blob s r.name i ∧ r.want = .whole
  | .done answer => ∀ bytes, answer = .ok bytes →
      ∃ p ∈ s.asked, p.name = r.name ∧ r.want.of p.body = .ok bytes

structure Inv (s : Site) : Prop where
  closed : Closed s.fs
  blobs : ∀ name n, Shows s.fs (fanout name) n → ∃ i, n = .file i ∧ Blob s name i
  asked : ∀ w ∈ s.writers, w.put ∈ s.asked
  writers : ∀ w ∈ s.writers, w.Ok s.fs
  apart : ∀ (j k : Nat) (w w' : Writer), j ≠ k → s.writers[j]? = some w →
    s.writers[k]? = some w' → Apart w w'
  readers : ∀ r ∈ s.readers, r.Ok s
  kept : ∀ name ∈ s.kept, Kept s.fs (fanout name)

/-! ## What a step keeps -/

/-- What a step does to the whole blobs: they stay, and nobody writes to them. -/
structure Grows (s s' : Site) : Prop where
  blobs : ∀ name i, Blob s name i → Blob s' name i ∧ s'.fs.inodes i = s.fs.inodes i
  asked : ∀ p ∈ s.asked, p ∈ s'.asked

theorem Reader.Ok.grows {s s' : Site} {r : Reader} (h : r.Ok s) (hgrows : Grows s s') : r.Ok s' := by
  unfold Reader.Ok at h ⊢
  cases hphase : r.phase with
  | opening => trivial
  | stat i =>
      simp only [hphase] at h ⊢
      exact (hgrows.blobs _ _ h).1
  | seek i stop =>
      simp only [hphase] at h ⊢
      obtain ⟨hblob, h⟩ := h
      rw [(hgrows.blobs _ _ hblob).2]
      exact ⟨(hgrows.blobs _ _ hblob).1, h⟩
  | read i stop =>
      simp only [hphase] at h ⊢
      obtain ⟨hblob, h⟩ := h
      rw [(hgrows.blobs _ _ hblob).2]
      exact ⟨(hgrows.blobs _ _ hblob).1, h⟩
  | readAll i =>
      simp only [hphase] at h ⊢
      exact ⟨(hgrows.blobs _ _ h.1).1, h.2⟩
  | done answer =>
      simp only [hphase] at h ⊢
      intro bytes hbytes
      obtain ⟨p, hp, hread⟩ := h bytes hbytes
      exact ⟨p, hgrows.asked p hp, hread⟩

section Write

variable {s s' : Site} {fs' : FileSystem} {k : Nat} {w : Writer} {phase : PutPhase}

theorem present_of_effect (heff : Effect s.fs fs' w phase) {name : BlobName}
    (hname : s.fs.entries (fanout name) ≠ none) : fs'.entries (fanout name) ≠ none := by
  by_cases heq : name = w.put.name
  · subst heq
    rcases heff.own with hstays | ⟨-, i, hlands⟩
    · rw [hstays.entries]
      exact hname
    · rw [hlands.entry]
      simp
  · rw [(heff.others name heq).entries]
    exact hname

theorem kept_of_effect (heff : Effect s.fs fs' w phase) {name : BlobName}
    (hname : Kept s.fs (fanout name)) : Kept fs' (fanout name) := by
  refine ⟨present_of_effect heff hname.1, fun hnone => ?_⟩
  by_cases heq : name = w.put.name
  · subst heq
    rcases heff.own with hstays | ⟨-, i, hlands⟩
    · exact hname.2 (hstays.past _ hnone)
    · rcases hlands.past _ hnone with habsent | hpast
      · exact hname.1 habsent.symm
      · exact hname.2 hpast
  · exact hname.2 ((heff.others name heq).past _ hnone)

theorem holds_of_effect (heff : Effect s.fs fs' w phase) {tmp : Path} {i : Nat}
    (hfile : Holds s.fs tmp i)
    (hapart : ∀ tmp' i', w.phase.holds = some (tmp', i') → tmp' ≠ tmp ∧ i' ≠ i) :
    Holds fs' tmp i ∧ fs'.inodes i = s.fs.inodes i := by
  obtain ⟨⟨uuid, rfl⟩, hold, hentry⟩ := hfile
  refine ⟨⟨⟨uuid, rfl⟩, lt_of_lt_of_le hold heff.fresh, ?_⟩, ?_⟩
  · rw [heff.tmps uuid (by simp [hentry]) (fun i' hi' => (hapart _ _ hi').1 rfl)]
    exact hentry
  · exact heff.inodes i hold (fun tmp' htmp' => (hapart _ _ htmp').2 rfl)

theorem ok_of_effect (heff : Effect s.fs fs' w phase) {v : Writer} (hok : v.Ok s.fs)
    (hapart : Apart w v) : v.Ok fs' := by
  have hmine {tmp : Path} {i : Nat} (hheld : v.phase.holds = some (tmp, i)) :
      Holds fs' tmp i ∧ fs'.inodes i = s.fs.inodes i :=
    holds_of_effect heff (hok.holds hheld) (fun tmp' i' hw => hapart _ _ _ _ hw hheld)
  have hanswer {name : BlobName} {answer : CoreResult Bool} (h : Answered s.fs name answer) :
      Answered fs' name answer := fun b hb => present_of_effect heff (h b hb)
  unfold Writer.Ok at hok ⊢
  cases hphase : v.phase <;> simp only [hphase] at hok hmine ⊢
  case write tmp i rest =>
    obtain ⟨hholds, hinode⟩ := hmine rfl
    rw [hinode]
    exact ⟨hholds, hok.2⟩
  case sync tmp i =>
    obtain ⟨hholds, hinode⟩ := hmine rfl
    rw [hinode]
    exact ⟨hholds, hok.2⟩
  case rename tmp i =>
    obtain ⟨hholds, hinode⟩ := hmine rfl
    rw [hinode]
    exact ⟨hholds, hok.2⟩
  case recheck tmp i e => exact (hmine rfl).1
  case syncDir => exact present_of_effect heff hok
  case removeTmp tmp i answer => exact ⟨(hmine rfl).1, hanswer hok.2⟩
  case done answer => exact hanswer hok

/-- A writer after a call of `w`: `w` itself, or one that has nothing to do with it. -/
theorem writer_cases (hinv : Inv s) (hw : s.writers[k]? = some w) {v : Writer}
    (hv : v ∈ s.writers.set k ⟨w.put, phase⟩) :
    v = ⟨w.put, phase⟩ ∨ v ∈ s.writers ∧ Apart w v := by
  refine (Tasks.mem_set_cases hv).imp_right ?_
  rintro ⟨j, hj, hget⟩
  exact ⟨List.mem_of_getElem? hget, hinv.apart k j w v (Ne.symm hj) hw hget⟩

theorem blob_of_effect (hinv : Inv s) (hw : s.writers[k]? = some w)
    (heff : Effect s.fs fs' w phase) (hfs : s'.fs = fs')
    (hwriters : s'.writers = s.writers.set k ⟨w.put, phase⟩) (hasked : s'.asked = s.asked)
    {name : BlobName} {i : Nat} (h : Blob s name i) :
    Blob s' name i ∧ s'.fs.inodes i = s.fs.inodes i := by
  have hmem := List.mem_of_getElem? hw
  have hinode : s'.fs.inodes i = s.fs.inodes i := by
    rw [hfs]
    exact heff.inodes i h.old (h.free w hmem)
  refine ⟨⟨?_, fun v hv tmp hheld => ?_, ?_, ?_⟩, hinode⟩
  · rw [hfs]
    exact lt_of_lt_of_le h.old heff.fresh
  · rw [hwriters] at hv
    rcases writer_cases hinv hw hv with rfl | ⟨hv, -⟩
    · rcases heff.holds with hsame | hnone | ⟨uuid, hnew, -⟩
      · exact h.free w hmem tmp (hsame ▸ hheld)
      · rw [hnone] at hheld
        cases hheld
      · rw [hnew] at hheld
        have hfresh := (Prod.mk.inj (Option.some.inj hheld)).2
        exact absurd h.old (by omega)
    · exact h.free v hv tmp hheld
  · rw [hinode]
    exact h.synced
  · rw [hinode, hasked]
    exact h.whole

/-- The blob that appears is whole. -/
theorem blob_of_lands (hinv : Inv s) (hw : s.writers[k]? = some w)
    (heff : Effect s.fs fs' w phase) (hfs : s'.fs = fs')
    (hwriters : s'.writers = s.writers.set k ⟨w.put, phase⟩) (hasked : s'.asked = s.asked)
    (hfree : phase.holds = none) {i : Nat} (h : Lands s.fs fs' w i) : Blob s' w.put.name i := by
  have hmem := List.mem_of_getElem? hw
  obtain ⟨tmp, hheld⟩ := h.held
  have hinode : s'.fs.inodes i = ⟨w.put.body, true⟩ := by
    rw [hfs, h.inodes, h.whole]
  refine ⟨?_, fun v hv tmp' hheld' => ?_, by rw [hinode], ?_⟩
  · rw [hfs]
    exact lt_of_lt_of_le ((hinv.writers w hmem).holds hheld).2.1 heff.fresh
  · rw [hwriters] at hv
    rcases writer_cases hinv hw hv with rfl | ⟨-, hapart⟩
    · rw [hfree] at hheld'
      cases hheld'
    · exact (hapart _ _ _ _ hheld hheld').2 rfl
  · rw [hasked]
    exact ⟨w.put, hinv.asked w hmem, rfl, by rw [hinode]⟩

theorem apart_of_effect (hinv : Inv s)
    (heff : Effect s.fs fs' w phase) {v : Writer} (hv : v ∈ s.writers) (hapart : Apart w v) :
    Apart ⟨w.put, phase⟩ v := by
  intro tmp i tmp' i' hheld hheld'
  rcases heff.holds with hsame | hnone | ⟨uuid, hnew, hunused⟩
  · exact hapart tmp i tmp' i' (hsame ▸ hheld) hheld'
  · rw [hnone] at hheld
    cases hheld
  · rw [hnew] at hheld
    obtain ⟨rfl, rfl⟩ := Prod.mk.inj (Option.some.inj hheld)
    obtain ⟨-, hold, hentry⟩ := (hinv.writers v hv).holds hheld'
    refine ⟨fun heq => ?_, by omega⟩
    rw [← heq, hunused] at hentry
    cases hentry

theorem Apart.symm {w w' : Writer} (h : Apart w w') : Apart w' w := fun _ _ _ _ hw' hw =>
  ⟨Ne.symm (h _ _ _ _ hw hw').1, Ne.symm (h _ _ _ _ hw hw').2⟩

theorem inv_write {display : Path → String} {c : Choice} (hinv : Inv s)
    (hw : s.writers[k]? = some w) (hstep : step display s (.write k c) = some s') :
    Inv s' ∧ Grows s s' := by
  have hmem := List.mem_of_getElem? hw
  cases hnext : w.next display s.fs c with
  | mk fs' phase =>
  have heff := effect_next hinv.closed (hinv.writers w hmem) hnext
  simp only [step, hw, hnext, Option.some.injEq] at hstep
  have hfs : s'.fs = fs' := by rw [← hstep]
  have hwriters : s'.writers = s.writers.set k ⟨w.put, phase⟩ := by rw [← hstep]
  have hasked : s'.asked = s.asked := by rw [← hstep]
  have hblob {name : BlobName} {i : Nat} (h : Blob s name i) :=
    blob_of_effect hinv hw heff hfs hwriters hasked h
  have hgrows : Grows s s' := ⟨fun _ _ h => hblob h, fun p hp => by rw [hasked]; exact hp⟩
  refine ⟨⟨?_, fun name n hn => ?_, fun v hv => ?_, fun v hv => ?_, ?_,
    fun r hr => ?_, fun name hname => ?_⟩, hgrows⟩
  · subst hstep
    exact heff.closed
  · have hold (h : Shows s.fs (fanout name) n) : ∃ i, n = .file i ∧ Blob s' name i := by
      obtain ⟨i, rfl, hi⟩ := hinv.blobs name n h
      exact ⟨i, rfl, (hblob hi).1⟩
    rw [hfs] at hn
    by_cases heq : name = w.put.name
    · subst heq
      rcases heff.own with hstays | ⟨hfree, i, h⟩
      · exact hold (hstays.shows hn)
      · rcases hn with hn | hn
        · rw [h.entry] at hn
          exact ⟨i, (Option.some.inj hn).symm,
            blob_of_lands hinv hw heff hfs hwriters hasked hfree h⟩
        · rcases h.past _ hn with hnow | hpast
          · exact hold (Or.inl hnow.symm)
          · exact hold (Or.inr hpast)
    · exact hold ((heff.others name heq).shows hn)
  · subst hstep
    rcases writer_cases hinv hw hv with rfl | ⟨hv, -⟩
    · exact hinv.asked w hmem
    · exact hinv.asked v hv
  · subst hstep
    rcases writer_cases hinv hw hv with rfl | ⟨hv, hapart⟩
    · exact heff.ok
    · exact ok_of_effect heff (hinv.writers v hv) hapart
  · have hset : Tasks.Apart Apart s'.writers := by
      rw [hwriters]
      refine Tasks.Apart.set (fun _ _ h => h.symm) hinv.apart (fun j v hj hv => ?_)
      exact apart_of_effect hinv heff (List.mem_of_getElem? hv)
        (hinv.apart k j w v (Ne.symm hj) hw hv)
    exact hset
  · subst hstep
    exact (hinv.readers r hr).grows hgrows
  · subst hstep
    unfold keep at hname
    split_ifs at hname with hsync
    · rcases List.mem_cons.1 hname with rfl | hname
      · refine ⟨present_of_effect heff ?_, ?_⟩
        · have hok := hinv.writers w hmem
          simpa only [Writer.Ok, hsync.1] using hok
        · simp only [Writer.next, hsync.1, hsync.2, Prod.mk.injEq] at hnext
          rw [← hnext.1, Disk.syncDir_past _ (fanout_ne_nil _)]
          exact List.not_mem_nil
      · exact kept_of_effect heff (hinv.kept name hname)
    · exact kept_of_effect heff (hinv.kept name hname)

end Write

section Step

variable {display : Path → String} {s s' : Site}

theorem inv_put (hinv : Inv s) (p : Put) :
    Inv { s with writers := s.writers ++ [⟨p, .stat⟩], asked := p :: s.asked } ∧
      Grows s { s with writers := s.writers ++ [⟨p, .stat⟩], asked := p :: s.asked } := by
  have hnew {w : Writer} (hw : w ∈ s.writers ++ [⟨p, .stat⟩]) : w ∈ s.writers ∨ w = ⟨p, .stat⟩ := by
    simpa using hw
  have hblob {name : BlobName} {i : Nat} (h : Blob s name i) :
      Blob { s with writers := s.writers ++ [⟨p, .stat⟩], asked := p :: s.asked } name i := by
    refine ⟨h.old, fun w hw tmp hheld => ?_, h.synced, ?_⟩
    · rcases hnew hw with hw | rfl
      · exact h.free w hw tmp hheld
      · cases hheld
    · obtain ⟨q, hq, hread⟩ := h.whole
      exact ⟨q, List.mem_cons_of_mem p hq, hread⟩
  have hgrows : Grows s { s with writers := s.writers ++ [⟨p, .stat⟩], asked := p :: s.asked } :=
    ⟨fun name i h => ⟨hblob h, rfl⟩, fun q hq => List.mem_cons_of_mem p hq⟩
  refine ⟨⟨hinv.closed, fun name n hn => ?_, fun w hw => ?_, fun w hw => ?_, ?_,
    fun r hr => (hinv.readers r hr).grows hgrows, hinv.kept⟩, hgrows⟩
  · obtain ⟨i, rfl, hi⟩ := hinv.blobs name n hn
    exact ⟨i, rfl, hblob hi⟩
  · rcases hnew hw with hw | rfl
    · exact List.mem_cons_of_mem p (hinv.asked w hw)
    · exact List.mem_cons_self
  · rcases hnew hw with hw | rfl
    · exact hinv.writers w hw
    · trivial
  · have hconcat : Tasks.Apart Apart (s.writers ++ [⟨p, .stat⟩]) := by
      refine Tasks.Apart.concat (fun _ _ h => h.symm) hinv.apart (fun v _ => ?_)
      intro tmp i tmp' i' hheld
      cases hheld
    exact hconcat

/-- The readers are all that a read changes. -/
theorem inv_readers (hinv : Inv s) {readers : List Reader}
    (h : ∀ r ∈ readers, r.Ok { s with readers := readers }) :
    Inv { s with readers := readers } ∧ Grows s { s with readers := readers } := by
  have hblob {name : BlobName} {i : Nat} (h : Blob s name i) :
      Blob { s with readers := readers } name i := ⟨h.old, h.free, h.synced, h.whole⟩
  refine ⟨⟨hinv.closed, fun name n hn => ?_, hinv.asked, hinv.writers, hinv.apart, h,
    hinv.kept⟩, fun name i h => ⟨hblob h, rfl⟩, fun _ hp => hp⟩
  obtain ⟨i, rfl, hi⟩ := hinv.blobs name n hn
  exact ⟨i, rfl, hblob hi⟩

theorem ok_start (s : Site) (name : BlobName) (want : Want) : (Reader.start name want).Ok s := by
  cases want with
  | whole => trivial
  | range start stop =>
      unfold Reader.start
      dsimp only
      split_ifs
      · exact fun bytes h => by cases h
      · trivial

/-- A call of a read finds what it looks for in a whole blob. -/
theorem ok_next (hinv : Inv s) {r : Reader} (hok : r.Ok s) (c : Choice) :
    (Reader.mk r.name r.want (r.next s.fs c)).Ok s := by
  have hfailed (e : CoreError) : (Reader.mk r.name r.want (.done (.error e))).Ok s :=
    fun bytes h => by cases h
  obtain ⟨name, want, current⟩ := r
  cases current with
  | opening =>
      simp only [Reader.next]
      split
      · exact hfailed _
      · split
        · exact hfailed _
        · exact hfailed _
        · rename_i i hentry
          obtain ⟨j, hj, hblob⟩ := hinv.blobs name _ (Or.inl hentry)
          obtain rfl := Disk.Node.file.inj hj
          cases want with
          | range start stop => exact hblob
          | whole => exact ⟨hblob, rfl⟩
  | stat i =>
      simp only [Reader.next]
      split
      · exact hfailed _
      · split_ifs with hpast
        · exact hfailed _
        · exact ⟨hok, _, _, rfl, Nat.le_of_not_lt hpast, rfl⟩
      · exact ⟨hok, rfl⟩
  | seek i stop =>
      simp only [Reader.next]
      split
      · exact hfailed _
      · exact hok
  | read i stop =>
      obtain ⟨hblob, start, stop', hwant, hstart, hstop⟩ := hok
      simp only at hwant
      subst hwant
      simp only [Reader.next]
      split
      · exact hfailed _
      · rename_i c' start' stop'' _ hrange
        obtain ⟨rfl, rfl⟩ := Want.range.inj hrange
        split_ifs
        · exact hfailed _
        · intro bytes hbytes
          obtain ⟨p, hp, hname, hbody⟩ := hblob.whole
          refine ⟨p, hp, hname, ?_⟩
          have hle : ¬ start > p.body.length := by
            rw [← hbody]
            exact Nat.not_lt.2 hstart
          change rangeOf p.body start stop' = _
          unfold rangeOf
          rw [if_neg hle, ← hbytes, hstop, hbody, ← List.take_eq_take_min]
      · rename_i hwhole
        cases hwhole
  | readAll i =>
      obtain ⟨hblob, hwhole⟩ := hok
      simp only [Reader.next]
      split
      · exact hfailed _
      · intro bytes hbytes
        obtain ⟨p, hp, hname, hbody⟩ := hblob.whole
        refine ⟨p, hp, hname, ?_⟩
        rw [← hbytes, hbody]
        simp only at hwhole
        rw [hwhole]
        rfl
  | done answer => exact hok

theorem mkdirAll_one {fs : FileSystem} (hclosed : Closed fs) (sub : String) :
    Closed ((Disk.mkdirAll fs [sub]).getD fs) ∧
    ((Disk.mkdirAll fs [sub]).getD fs).inodes = fs.inodes ∧
    ((Disk.mkdirAll fs [sub]).getD fs).fresh = fs.fresh ∧
    ∀ p : Path, 1 < p.length → Stays fs ((Disk.mkdirAll fs [sub]).getD fs) p := by
  cases hmk : Disk.mkdirAll fs [sub] with
  | none => exact ⟨hclosed, rfl, rfl, fun p _ => Stays.refl fs p⟩
  | some fs' =>
      obtain ⟨hinodes, hfresh⟩ := Disk.mkdirAll_inodes hmk
      refine ⟨hclosed.mkdirAll hmk, hinodes, hfresh,
        fun p hp => Disk.mkdirAll_stays hmk (fun hpre => ?_)⟩
      have hlen := hpre.length_le
      rw [List.length_singleton] at hlen
      omega

/-- Opening a store touches nothing but its three directories. -/
theorem openStore_spec {fs : FileSystem} (hclosed : Closed fs) :
    Closed (openStore fs) ∧ (openStore fs).inodes = fs.inodes ∧
    (openStore fs).fresh = fs.fresh ∧ ∀ p : Path, 1 < p.length → Stays fs (openStore fs) p := by
  unfold openStore
  generalize ["xorbs", "shards", "tmp"] = subs
  induction subs generalizing fs with
  | nil => exact ⟨hclosed, rfl, rfl, fun p _ => Stays.refl fs p⟩
  | cons sub subs ih =>
      obtain ⟨hclosed', hinodes, hfresh, hstays⟩ := mkdirAll_one hclosed sub
      obtain ⟨h, hinodes', hfresh', hstays'⟩ := ih hclosed'
      exact ⟨h, hinodes'.trans hinodes, hfresh'.trans hfresh,
        fun p hp => (hstays p hp).trans (hstays' p hp)⟩

theorem inv_crash {back : List (Path × Option Disk.Node)} {lost : Nat → List UInt8} (hinv : Inv s)
    (hstep : step display s (.crash back lost) = some s') : Inv s' ∧ Grows s s' := by
  simp only [step] at hstep
  split at hstep
  · cases hstep
  · rename_i fs hcrash
    obtain rfl := Option.some.inj hstep
    obtain ⟨hclosed, hinodes, hfresh, hother⟩ := openStore_spec (hinv.closed.crash hcrash)
    have hstays (name : BlobName) : Stays fs (openStore fs) (fanout name) :=
      hother _ (by simp [fanout])
    have hinode {name : BlobName} {i : Nat} (h : Blob s name i) :
        (openStore fs).inodes i = s.fs.inodes i := by
      rw [hinodes]
      exact Disk.crash_inodes hcrash h.synced
    have hblob {name : BlobName} {i : Nat} (h : Blob s name i) : Blob
        ⟨openStore fs, [], [], s.asked,
          if back.all (fun e => decide (s.fs.entries e.1 ≠ some .dir)) then s.kept else []⟩
        name i := by
      refine ⟨?_, fun w hw => absurd hw List.not_mem_nil, ?_, ?_⟩
      · rw [hfresh, Disk.crash_fresh hcrash]
        exact h.old
      · rw [hinode h]
        exact h.synced
      · rw [hinode h]
        exact h.whole
    refine ⟨⟨hclosed, fun name n hn => ?_, fun w hw => absurd hw List.not_mem_nil,
      fun w hw => absurd hw List.not_mem_nil, fun a b w w' _ hw => by simp at hw,
      fun r hr => absurd hr List.not_mem_nil, fun name hname => ?_⟩,
      fun name i h => ⟨hblob h, hinode h⟩, fun p hp => hp⟩
    · obtain ⟨i, rfl, hi⟩ :=
        hinv.blobs name n (Disk.crash_shows hcrash ((hstays name).shows hn))
      exact ⟨i, rfl, hblob hi⟩
    · simp only at hname
      split_ifs at hname with hdirs
      · have hkept := (hinv.kept name hname).crash hinv.closed hcrash (fun e he => by
          simpa using List.all_eq_true.1 hdirs e he)
        refine ⟨?_, fun hnone => hkept.2 ((hstays name).past _ hnone)⟩
        rw [(hstays name).entries]
        exact hkept.1
      · exact absurd hname List.not_mem_nil

/-- **What every step keeps.** -/
theorem inv_step {a : Act} (hinv : Inv s) (hstep : step display s a = some s') :
    Inv s' ∧ Grows s s' := by
  cases a with
  | put p =>
      rw [← Option.some.inj hstep]
      exact inv_put hinv p
  | get name want =>
      rw [← Option.some.inj hstep]
      refine inv_readers hinv (fun r hr => ?_)
      rcases List.mem_append.1 hr with hr | hr
      · exact (hinv.readers r hr).grows ⟨fun _ _ h => ⟨⟨h.old, h.free, h.synced, h.whole⟩, rfl⟩,
          fun _ hp => hp⟩
      · rw [List.mem_singleton.1 hr]
        exact ok_start _ name want
  | write k c =>
      cases hw : s.writers[k]? with
      | none =>
          simp only [step, hw] at hstep
          cases hstep
      | some w => exact inv_write hinv hw hstep
  | read k c =>
      simp only [step] at hstep
      split at hstep
      · cases hstep
      · rename_i r hr
        rw [← Option.some.inj hstep]
        have hgrows (readers : List Reader) : Grows s { s with readers := readers } :=
          ⟨fun _ _ h => ⟨⟨h.old, h.free, h.synced, h.whole⟩, rfl⟩, fun _ hp => hp⟩
        refine inv_readers hinv (fun r' hr' => ?_)
        rcases Tasks.mem_set_cases hr' with rfl | ⟨j, -, hj⟩
        · exact (ok_next hinv (hinv.readers r (List.mem_of_getElem? hr)) c).grows (hgrows _)
        · exact (hinv.readers r' (List.mem_of_getElem? hj)).grows (hgrows _)
  | crash back lost => exact inv_crash hinv hstep

theorem inv_opened : Inv Site.opened := by
  have hclosed : Closed (Disk.State.empty : FileSystem) := Disk.closed_empty
  obtain ⟨hopen, -, -, hstays⟩ := openStore_spec hclosed
  refine ⟨hopen, fun name n hn => ?_, fun w hw => absurd hw List.not_mem_nil,
    fun w hw => absurd hw List.not_mem_nil, fun a b w w' _ hw => by simp [Site.opened] at hw,
    fun r hr => absurd hr List.not_mem_nil, fun name hname => absurd hname List.not_mem_nil⟩
  have hempty : ¬ Shows (Disk.State.empty : FileSystem) (fanout name) n := by
    unfold Shows
    simp [Disk.State.empty, fanout_ne_nil]
  exact absurd ((hstays _ (by simp [fanout])).shows hn) hempty

theorem inv_run {acts : List Act} (hrun : Machine.run (step display) Site.opened acts = some s) :
    Inv s :=
  Machine.run_invariant_of_step (fun _ _ _ hinv hstep => (inv_step hinv hstep).1) inv_opened hrun

theorem asked_run {acts : List Act} {t : Site}
    (hrun : Machine.run (step display) s acts = some t) {p : Put} (hp : p ∈ t.asked) :
    p ∈ s.asked ∨ Act.put p ∈ acts := by
  induction acts generalizing s with
  | nil =>
      rw [← Option.some.inj hrun] at hp
      exact Or.inl hp
  | cons a acts ih =>
      obtain ⟨s', hstep, hrest⟩ := Machine.run_cons_eq_some hrun
      have hone : p ∈ s'.asked → p ∈ s.asked ∨ Act.put p = a := by
        intro h
        cases a with
        | put q =>
            rw [← Option.some.inj hstep] at h
            exact (List.mem_cons.1 h).symm.imp_right (fun heq => by rw [heq])
        | get name want =>
            rw [← Option.some.inj hstep] at h
            exact Or.inl h
        | write k c =>
            simp only [step] at hstep
            split at hstep
            · cases hstep
            · rw [← Option.some.inj hstep] at h
              exact Or.inl h
        | read k c =>
            simp only [step] at hstep
            split at hstep
            · cases hstep
            · rw [← Option.some.inj hstep] at h
              exact Or.inl h
        | crash back lost =>
            simp only [step] at hstep
            split at hstep
            · cases hstep
            · rw [← Option.some.inj hstep] at h
              exact Or.inl h
      rcases ih hrest with h | h
      · exact (hone h).imp_right (fun heq : Act.put p = a => heq ▸ List.mem_cons_self)
      · exact Or.inr (List.mem_cons_of_mem a h)

end Step

/-! ## Every run -/

/-- The blob at the path of a hash. -/
def stored (fs : FileSystem) (name : BlobName) : Option (List UInt8) :=
  match fs.entries (fanout name) with
  | some (.file i) => some (fs.inodes i).data
  | _ => none

theorem stored_of_present {s : Site} (hinv : Inv s) {name : BlobName}
    (h : s.fs.entries (fanout name) ≠ none) :
    ∃ p ∈ s.asked, p.name = name ∧ stored s.fs name = some p.body := by
  obtain ⟨n, hn⟩ := Option.ne_none_iff_exists'.1 h
  obtain ⟨i, rfl, hblob⟩ := hinv.blobs name n (Or.inl hn)
  obtain ⟨p, hp, hname, hbody⟩ := hblob.whole
  refine ⟨p, hp, hname, ?_⟩
  unfold stored
  rw [hn]
  simp only [hbody]

theorem present_of_stored {fs : FileSystem} {name : BlobName} {body : List UInt8}
    (h : stored fs name = some body) : fs.entries (fanout name) ≠ none := by
  intro hnone
  unfold stored at h
  rw [hnone] at h
  cases h

/-- **Blobs are whole.** In every interleaving of puts and reads, whatever fails, however often and
    whenever the machine goes down: a file at the path of a hash is the body of a put of that hash,
    from its first byte to its last; a put that was answered `Ok` finds one there; a read that was
    answered got its bytes from the body of one; and a crash that loses no directory loses none whose
    directory was synced. -/
theorem fs_blobs_whole (display : Path → String) (acts : List Act) (s : Site)
    (hrun : Machine.run (step display) Site.opened acts = some s) :
    (∀ name body, stored s.fs name = some body → Act.put ⟨name, body⟩ ∈ acts) ∧
    (∀ w ∈ s.writers, ∀ b, w.phase = .done (.ok b) → ∃ body, stored s.fs w.put.name = some body) ∧
    (∀ r ∈ s.readers, ∀ bytes, r.phase = .done (.ok bytes) →
      ∃ body, Act.put ⟨r.name, body⟩ ∈ acts ∧ r.want.of body = .ok bytes) ∧
    ∀ name ∈ s.kept, ∀ back lost s', step display s (.crash back lost) = some s' →
      (∀ e ∈ back, s.fs.entries e.1 ≠ some .dir) → ∃ body, stored s'.fs name = some body := by
  have hinv := inv_run hrun
  have hasked {p : Put} (hp : p ∈ s.asked) : Act.put p ∈ acts :=
    (asked_run hrun hp).resolve_left List.not_mem_nil
  refine ⟨fun name body h => ?_, fun w hw b hb => ?_, fun r hr bytes hbytes => ?_,
    fun name hname back lost s' hcrash hdirs => ?_⟩
  · obtain ⟨p, hp, rfl, hbody⟩ := stored_of_present hinv (present_of_stored h)
    rw [h] at hbody
    rw [Option.some.inj hbody]
    exact hasked hp
  · have hok := hinv.writers w hw
    simp only [Writer.Ok, hb] at hok
    obtain ⟨p, -, -, hbody⟩ := stored_of_present hinv (hok b rfl)
    exact ⟨p.body, hbody⟩
  · have hok := hinv.readers r hr
    simp only [Reader.Ok, hbytes] at hok
    obtain ⟨p, hp, hname, hread⟩ := hok bytes rfl
    exact ⟨p.body, hname ▸ hasked hp, hread⟩
  · have hinv' := (inv_step hinv hcrash).1
    have hkept : name ∈ s'.kept := by
      simp only [step] at hcrash
      split at hcrash
      · cases hcrash
      · obtain rfl := Option.some.inj hcrash
        simp only
        rw [if_pos (List.all_eq_true.2 (fun e he => decide_eq_true (hdirs e he)))]
        exact hname
    obtain ⟨p, -, -, hbody⟩ := stored_of_present hinv' (hinv'.kept name hkept).1
    exact ⟨p.body, hbody⟩

namespace Sample

def blob : BlobName := ⟨.xorbs, Server.Sample.hash32 7⟩

/-- A call that goes through, in full. -/
def going (uuid : String) : Choice := ⟨none, 8, uuid⟩

/-- Two puts of one blob. The first is half written when the second is done and the machine goes
    down; what is read afterwards is the second. -/
def race : List Act :=
  [.put ⟨blob, [1, 2, 3]⟩, .put ⟨blob, [1, 2, 3]⟩] ++
  List.replicate 3 (.write 0 (going "a")) ++ [.write 0 ⟨none, 1, ""⟩] ++
  List.replicate 7 (.write 1 (going "b"))

def power : Act := .crash [(tmpPath "a", none)] (fun _ => [9])

end Sample

/-- The machine can go down then, and the blob that was answered `Ok` is there afterwards. -/
theorem fs_blobs_whole_race : ∃ s s', Machine.run (step (String.intercalate "/")) Site.opened
    Sample.race = some s ∧ step (String.intercalate "/") s Sample.power = some s' ∧
      ∃ body, stored s'.fs Sample.blob = some body := by
  have hrun : (Machine.run (step (String.intercalate "/")) Site.opened Sample.race).map
      (fun s => ((step (String.intercalate "/") s Sample.power).isSome,
        decide (Sample.blob ∈ s.kept), decide (s.fs.entries (tmpPath "a") ≠ some .dir))) =
      some (true, true, true) := by
    decide +kernel
  obtain ⟨s, hs, hfacts⟩ := Option.map_eq_some_iff.1 hrun
  simp only [Prod.mk.injEq, decide_eq_true_eq] at hfacts
  obtain ⟨hsome, hblob, hfile⟩ := hfacts
  obtain ⟨s', hs'⟩ := Option.isSome_iff_exists.1 hsome
  obtain ⟨-, -, -, hkept⟩ := fs_blobs_whole _ _ s hs
  refine ⟨s, s', hs, hs', hkept Sample.blob hblob _ _ s' hs' (fun e he => ?_)⟩
  rw [List.mem_singleton.1 he]
  exact hfile

end BaleForGit.Server.FsStore
