import Mathlib.Data.List.Sort
import BaleForGit.Client.Race

set_option autoImplicit false

/-! # Push-pending among cleans and gc runs (`push_pending.rs`, `run`)

A push-pending run lists the staged files, uploads them again from staging, and drains them: it
takes the store lock, removes the markers of the files it listed, and sweeps the objects if no
marker is left. It has the lock for the drain only. `DrainYard` puts one run into a `Yard`: between
any two of its steps, cleans, git operations and gc runs take theirs.

What a download from staging writes is decided by the action (`translate`), since it reads objects
at many moments and without the lock; the run goes on only if the file it cleans again has the hash
of the marker. So is a failure of the run (`fail`), before the drain. I/O errors of the drain are
not modelled. The files of the pushed refs that are not staged are left out: they never touch
staging. -/

namespace BaleForGit

/-- Where a push-pending run has got to; `staged` is what it has listed, with the sizes. -/
inductive PushPc where
  | idle
  | reading (names : List String) (staged : List (String × Nat))
  | uploading (staged todo : List (String × Nat)) (session : List String)
  | finalized (staged : List (String × Nat))
  | locked (staged : List (String × Nat))
  | removed (staged : List (String × Nat))
  | swept (staged : List (String × Nat))
  | done
  | failed

namespace PushPc

/-- It has the store lock. -/
def holdsLock : PushPc → Bool
  | .locked _ => true
  | .removed _ => true
  | .swept _ => true
  | _ => false

end PushPc

structure DrainYard (Oid Obj Key : Type) where
  yard : Yard Oid Obj Key
  push : PushPc
  /-- The objects that the server has or gets when the upload session is finalized. -/
  server : Finset Obj
  /-- The files that the run has registered on the server. -/
  registered : Finset String
  /-- The markers that the run listed when it began. -/
  listed : Finset String
  /-- The markers that the run has removed. -/
  drained : Finset String

/-- One step: of the yard, or of the run. `start` is given the order in which the directory is
    read, `translate` what the download of the next file writes. -/
inductive DrainAct (Oid : Type) where
  | yard (a : YardAct Oid)
  | start (names : List String)
  | translate (bytes : List UInt8)
  | push
  | fail

namespace DrainYard

variable {Oid Obj Key : Type}

/-- Nothing has run yet, and the server has some objects. -/
def fresh (repo : Repository Oid) (now : Nat) (server : Finset Obj) : DrainYard Oid Obj Key where
  yard := Yard.fresh repo now
  push := .idle
  server := server
  registered := ∅
  listed := ∅
  drained := ∅

/-- The files of `file-index/`. -/
def markers (s : DrainYard Oid Obj Key) : Markers := s.yard.site.dir.markers

end DrainYard

section Step

variable {Oid Obj Key : Type} [DecidableEq Oid] [DecidableEq Key] (deps : Deps Obj Key)
  (gixOf : Repository Oid → Gix Oid) (cfg : SiteConfig)

/-- A step of the yard while someone outside it has the store lock: a clean waits for it, and a gc
    run that begins does nothing. -/
def lockedOutStep (y : Yard Oid Obj Key) (a : YardAct Oid) : Option (Yard Oid Obj Key) :=
  match a with
  | .clean i =>
    match y.cleans i with
    | .looked _ _ => none
    | _ => cleanStep deps cfg y i
  | .startGc j _ =>
    match y.gcs j with
    | .idle => some y
    | _ => none
  | _ => yardStep deps gixOf cfg y a

/-- The order of `list_staged_files`, which is the one of the upload. -/
def sortStaged (staged : List (String × Nat)) : List (String × Nat) :=
  staged.mergeSort (fun f g => decide (f.1 ≤ g.1))

/-- The next step of the run that nothing outside decides. -/
def pushStep (s : DrainYard Oid Obj Key) : Option (DrainYard Oid Obj Key) :=
  match s.push with
  | .reading (h :: names) staged =>
    -- a marker that has gone, or that is being written, has no size
    match if h ∈ s.markers.files then s.markers.size h else none with
    | some size => some { s with push := .reading names (staged ++ [(h, size)]) }
    | none => some { s with push := .failed }
  | .reading [] staged =>
    if staged = [] then some { s with push := .done }
    else some { s with push := .uploading (sortStaged staged) (sortStaged staged) [] }
  | .uploading staged [] session =>
    some { s with push := .finalized staged, registered := s.registered ∪ session.toFinset }
  | .finalized staged =>
    if s.yard.lock = none then some { s with push := .locked staged } else none
  | .locked staged =>
    let names := (staged.map Prod.fst).toFinset
    some { s with yard := s.yard.setMarkers (s.markers.removeAll names)
                  push := .removed staged
                  drained := s.drained ∪ (s.markers.files ∩ names) }
  | .removed staged =>
    if s.markers.listStaged.card = 0 then
      some { s with yard := s.yard.setStores
                      (removeAllStagedObjects s.yard.site.stores (stagingRoot cfg.gitDir))
                    push := .swept staged }
    else some { s with push := .swept staged }
  | .swept _ => some { s with push := .done }
  | _ => none

def drainStep (s : DrainYard Oid Obj Key) (a : DrainAct Oid) : Option (DrainYard Oid Obj Key) :=
  match a with
  | .yard a =>
    (if s.push.holdsLock then lockedOutStep deps gixOf cfg s.yard a
      else yardStep deps gixOf cfg s.yard a).map (fun y => { s with yard := y })
  | .start names =>
    match s.push with
    | .idle =>
      -- in local mode there is nothing to drain
      if cfg.localMode then some { s with push := .done }
      else if names.Nodup ∧ names.toFinset = s.markers.listStaged then
        some { s with push := .reading names [], listed := s.markers.listStaged }
      else none
    | _ => none
  | .translate bytes =>
    match s.push with
    | .uploading staged ((h, size) :: todo) session =>
      let (server, info) := deps.xet.clean s.server (bytes.take size)
      if info.hash = h then
        some { s with push := .uploading staged todo (session ++ [h]), server := server }
      else some { s with push := .failed }
    | _ => none
  | .push => pushStep cfg s
  | .fail =>
    match s.push with
    | .reading _ _ => some { s with push := .failed }
    | .uploading _ _ _ => some { s with push := .failed }
    | _ => none

end Step

end BaleForGit
