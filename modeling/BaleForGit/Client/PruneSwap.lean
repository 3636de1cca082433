import BaleForGit.Library.Machine
import BaleForGit.Client.PruneSafety

set_option autoImplicit false

/-! # The swap of `prune --shared`, file-system step by file-system step

`pruneStore` says what a run makes of the store. Here its second half is a machine over the three
paths it works on: the store, `<store>.compact.<pid>` and `<store>.old.<pid>`. Every file-system
step succeeds, fails, or is the one the process dies in; a step that did not end leaves anything at
the path it was writing to. Renames are atomic.

The store is moved aside before the compacted one is moved in, so there is a time with no store at
its path, and the rollback that is to end it may fail itself. `swap_whole_iff` says that nothing else
goes wrong: not in the compaction, the copy of the registry or the removals, wherever the run
stops. -/

namespace BaleForGit

/-! ## Store directories -/

/-- An entry of the directory `<store>/repos`. -/
structure RegistryEntry where
  name : String
  isFile : Bool
  body : List UInt8
deriving DecidableEq, Repr

/-- The directory `<store>/repos`: no two entries have one name. -/
structure Registry where
  entries : List RegistryEntry
  nodup : (entries.map RegistryEntry.name).Nodup

def Registry.empty : Registry := ⟨[], List.nodup_nil⟩

/-- `std::fs::copy(entry, dst)`: what has the name already is overwritten. -/
def Registry.copyIn (r : Registry) (e : RegistryEntry) : Registry where
  entries := e :: r.entries.filter (fun x => decide (x.name ≠ e.name))
  nodup := by
    rw [List.map_cons, List.nodup_cons]
    refine ⟨?_, r.nodup.sublist (List.filter_sublist.map _)⟩
    intro hmem
    obtain ⟨x, hx, hname⟩ := List.mem_map.1 hmem
    exact of_decide_eq_true (List.mem_filter.1 hx).2 hname

theorem Registry.mem_copyIn {r : Registry} {e x : RegistryEntry} :
    x ∈ (r.copyIn e).entries ↔ x = e ∨ x ∈ r.entries ∧ x.name ≠ e.name := by
  simp [Registry.copyIn, List.mem_filter]

/-- The directory of a store; `registry` is `none` before a repository is registered. -/
structure StoreDir (Obj : Type) where
  objects : Finset Obj
  registry : Option Registry

def StoreDir.empty (Obj : Type) : StoreDir Obj := ⟨∅, none⟩

/-! ## The steps -/

inductive SwapError where
  | createStore
  | finalize
  | prune (e : PruneError)
deriving DecidableEq, Repr

/-- The file-system step that comes next. -/
inductive SwapPc where
  /-- `create_dir_all(new_store)`. -/
  | createStore
  /-- Reconstruct the next live file and clean it into the new store; after the last one,
      `finalize`. -/
  | compacting (rest : List String)
  | fingerprint
  /-- `create_dir_all(dst)`, of `copy_registry`. -/
  | createRegistry
  | readRegistry
  /-- The next entry of the registry. -/
  | copying (rest : List RegistryEntry)
  | moveAside
  | moveIn
  | rollBack
  | removeBackup
  /-- `remove_dir_all(new_store)`, on the way to an error. -/
  | removeCompact (e : PruneError)
  | finished (r : Except SwapError Unit)
  | crashed

/-- How a step ends; `left` is what a step that does not succeed leaves at the path it writes to. -/
inductive SwapAct (Obj : Type) where
  | ok
  | fail (left : Option (StoreDir Obj))
  | crash (left : Option (StoreDir Obj))

structure Swap (Obj : Type) where
  pc : SwapPc
  store : Option (StoreDir Obj)
  compact : Option (StoreDir Obj)
  backup : Option (StoreDir Obj)

/-- No step follows. -/
def SwapPc.Stopped : SwapPc → Prop
  | .finished _ => True
  | .crashed => True
  | _ => False

section Steps

variable {Obj : Type} (xet : Xet Obj) (size : String → Option Nat) (live : Finset String)

/-- A step that succeeds. -/
def Swap.succeed (s : Swap Obj) : Option (Swap Obj) :=
  match s.pc with
  | .createStore =>
    some { s with
      pc := .compacting (inOrder live)
      compact := some (s.compact.getD (StoreDir.empty Obj)) }
  | .compacting [] => some { s with pc := .fingerprint }
  | .compacting (h :: rest) =>
    match s.store, s.compact with
    | some old, some new =>
      match compactOne xet old.objects size new.objects h with
      | .error e => some { s with pc := .finished (.error (.prune e)) }
      | .ok objects =>
        some { s with pc := .compacting rest, compact := some { new with objects := objects } }
    | _, _ => none
  | .fingerprint => some { s with pc := .createRegistry }
  | .createRegistry =>
    s.compact.map (fun new => { s with
      pc := .readRegistry
      compact := some { new with registry := some (new.registry.getD Registry.empty) } })
  | .readRegistry =>
    s.store.map (fun old => match old.registry with
      | none => { s with pc := .moveAside }
      | some r => { s with pc := .copying r.entries })
  | .copying [] => some { s with pc := .moveAside }
  | .copying (e :: rest) =>
    s.compact.map (fun new => { s with
      pc := .copying rest
      compact := some { new with
        registry := if e.isFile then new.registry.map (fun r => r.copyIn e) else new.registry } })
  | .moveAside => some { s with pc := .moveIn, store := none, backup := s.store }
  | .moveIn => some { s with pc := .removeBackup, store := s.compact, compact := none }
  | .rollBack =>
    some { s with pc := .finished (.error (.prune .swap)), store := s.backup, backup := none }
  | .removeBackup => some { s with pc := .finished (.ok ()), backup := none }
  | .removeCompact e => some { s with pc := .finished (.error (.prune e)), compact := none }
  | .finished _ => none
  | .crashed => none

/-- A step that fails: most end the run, after the new store has been removed or without that. -/
def Swap.failed (s : Swap Obj) (left : Option (StoreDir Obj)) : Option (Swap Obj) :=
  match s.pc with
  | .createStore => some { s with pc := .finished (.error .createStore), compact := left }
  | .compacting [] => some { s with pc := .finished (.error .finalize), compact := left }
  | .compacting (h :: _) =>
    some { s with pc := .finished (.error (.prune (.reconstruct h))), compact := left }
  | .fingerprint => some { s with pc := .removeCompact .changed }
  | .createRegistry => some { s with pc := .removeCompact .copyRegistry, compact := left }
  | .readRegistry => some { s with pc := .removeCompact .copyRegistry }
  | .copying _ => some { s with pc := .removeCompact .copyRegistry, compact := left }
  | .moveAside => some { s with pc := .finished (.error (.prune .moveAside)) }
  -- roll back: never leave the store missing
  | .moveIn => some { s with pc := .rollBack }
  | .rollBack => some { s with pc := .finished (.error (.prune .swap)) }
  | .removeBackup => some { s with pc := .finished (.ok ()), backup := left }
  | .removeCompact e => some { s with pc := .finished (.error (.prune e)), compact := left }
  | .finished _ => none
  | .crashed => none

/-- A step that the process dies in, or before. -/
def Swap.killed (s : Swap Obj) (left : Option (StoreDir Obj)) : Option (Swap Obj) :=
  match s.pc with
  | .createStore | .compacting _ | .createRegistry | .copying _ | .removeCompact _ =>
    some { s with pc := .crashed, compact := left }
  | .removeBackup => some { s with pc := .crashed, backup := left }
  | .fingerprint | .readRegistry | .moveAside | .moveIn | .rollBack => some { s with pc := .crashed }
  | .finished _ => none
  | .crashed => none

def swapStep (s : Swap Obj) : SwapAct Obj → Option (Swap Obj)
  | .ok => s.succeed xet size live
  | .fail left => s.failed left
  | .crash left => s.killed left

end Steps

/-- A run begins with the old store, and whatever lies at the two other paths. -/
def Swap.start {Obj : Type} (old : StoreDir Obj) (compact backup : Option (StoreDir Obj)) :
    Swap Obj := ⟨.createStore, some old, compact, backup⟩

/-! ## Whole stores -/

section Whole

variable {Obj : Type} (xet : Xet Obj) (size : String → Option Nat) (live : Finset String)
  (old : StoreDir Obj) (leftover : Option (StoreDir Obj))

/-- The objects after some files have been compacted. -/
def Compacting (files : List String) (d : StoreDir Obj) : Prop :=
  files.foldlM (compactOne xet old.objects size) (leftover.getD (StoreDir.empty Obj)).objects =
    .ok d.objects

/-- Every file among these entries of the old registry is in the registry of `d`. -/
def Registers (entries : List RegistryEntry) (d : StoreDir Obj) : Prop :=
  ∃ r, d.registry = some r ∧ ∀ e ∈ entries, e.isFile = true → e ∈ r.entries

/-- The complete compacted contents, with the whole registry. -/
structure Compacted (d : StoreDir Obj) : Prop where
  objects : Compacting xet size old leftover (inOrder live) d
  registry : ∀ r, old.registry = some r → Registers r.entries d

/-- The store path holds the old store or the compacted one. -/
def StoreWhole (store : Option (StoreDir Obj)) : Prop :=
  ∃ d, store = some d ∧ (d = old ∨ Compacted xet size live old leftover d)

/-- What holds of the three paths before each step. -/
def SwapInv (s : Swap Obj) : Prop :=
  match s.pc with
  | .createStore => s.store = some old ∧ s.compact = leftover
  | .compacting rest => s.store = some old ∧ ∃ done new, inOrder live = done ++ rest ∧
      s.compact = some new ∧ Compacting xet size old leftover done new
  | .fingerprint => s.store = some old ∧ ∃ new, s.compact = some new ∧
      Compacting xet size old leftover (inOrder live) new
  | .createRegistry => s.store = some old ∧ ∃ new, s.compact = some new ∧
      Compacting xet size old leftover (inOrder live) new
  | .readRegistry => s.store = some old ∧ ∃ new, s.compact = some new ∧
      Compacting xet size old leftover (inOrder live) new ∧ Registers [] new
  | .copying rest => s.store = some old ∧ ∃ r done new, old.registry = some r ∧
      r.entries = done ++ rest ∧ s.compact = some new ∧
      Compacting xet size old leftover (inOrder live) new ∧ Registers done new
  | .moveAside => s.store = some old ∧ ∃ new, s.compact = some new ∧
      Compacted xet size live old leftover new
  | .moveIn => s.store = none ∧ s.backup = some old ∧ ∃ new, s.compact = some new ∧
      Compacted xet size live old leftover new
  | .rollBack => s.store = none ∧ s.backup = some old
  | .removeBackup => ∃ new, s.store = some new ∧ Compacted xet size live old leftover new
  | .removeCompact _ => s.store = some old
  | .finished (.ok ()) => ∃ new, s.store = some new ∧ Compacted xet size live old leftover new
  | .finished (.error _) => s.store = some old ∨ s.store = none
  | .crashed => True

/-- There is a store at its path, but for the time between the renames. -/
def SwapKeeps (s : Swap Obj) : Prop :=
  match s.pc with
  | .moveIn => True
  | .rollBack => True
  | _ => StoreWhole xet size live old leftover s.store

/-- While no store is at its path, the process does not die, and the rollback does not fail. -/
def SwapSafe (s : Swap Obj) (a : SwapAct Obj) : Prop :=
  match s.pc, a with
  | .moveIn, .crash _ => False
  | .rollBack, .crash _ => False
  | .rollBack, .fail _ => False
  | _, _ => True

end Whole

/-! ## One step -/

section Step

variable {Obj : Type} {xet : Xet Obj} {size : String → Option Nat} {live : Finset String}
  {old : StoreDir Obj} {leftover : Option (StoreDir Obj)}

theorem Compacting.next {done : List String} {h : String} {new : StoreDir Obj} {objects : Finset Obj}
    (hnew : Compacting xet size old leftover done new)
    (hone : compactOne xet old.objects size new.objects h = .ok objects) :
    Compacting xet size old leftover (done ++ [h]) { new with objects := objects } := by
  unfold Compacting at hnew ⊢
  rw [List.foldlM_append, hnew, ok_bind, List.foldlM_cons, hone]
  rfl

/-- Copying an entry keeps the entries that have other names. -/
theorem Registers.next {r : Registry} {done rest : List RegistryEntry} {e : RegistryEntry}
    {new : StoreDir Obj} (hsplit : r.entries = done ++ e :: rest) (hnew : Registers done new) :
    Registers (done ++ [e]) { new with
      registry := if e.isFile then new.registry.map (fun r => r.copyIn e) else new.registry } := by
  obtain ⟨dst, hdst, hall⟩ := hnew
  have hname : ∀ x ∈ done, x.name ≠ e.name := by
    have hnodup := r.nodup
    rw [hsplit, List.map_append, List.map_cons, List.nodup_append] at hnodup
    intro x hx
    exact hnodup.2.2 x.name (List.mem_map_of_mem hx) e.name List.mem_cons_self
  cases hfile : e.isFile with
  | true =>
      refine ⟨dst.copyIn e, by simp [hdst], fun x hx hxfile => ?_⟩
      rw [Registry.mem_copyIn]
      obtain hx | hx := List.mem_append.1 hx
      · exact Or.inr ⟨hall x hx hxfile, hname x hx⟩
      · exact Or.inl (List.mem_singleton.1 hx)
  | false =>
      refine ⟨dst, by simp [hdst], fun x hx hxfile => ?_⟩
      obtain hx | hx := List.mem_append.1 hx
      · exact hall x hx hxfile
      · rw [List.mem_singleton.1 hx, hfile] at hxfile
        exact absurd hxfile (by decide)

theorem swapInv_succeed {s s' : Swap Obj} (hinv : SwapInv xet size live old leftover s)
    (hstep : s.succeed xet size live = some s') : SwapInv xet size live old leftover s' := by
  obtain ⟨pc, store, compact, backup⟩ := s
  cases pc with
  | createStore =>
      obtain ⟨rfl, rfl⟩ := hinv
      obtain rfl := Option.some.inj hstep
      exact ⟨rfl, [], _, rfl, rfl, rfl⟩
  | compacting rest =>
      obtain ⟨rfl, done, new, hdone, rfl, hnew⟩ := hinv
      cases rest with
      | nil =>
          obtain rfl := Option.some.inj hstep
          rw [List.append_nil] at hdone
          exact ⟨rfl, new, rfl, hdone ▸ hnew⟩
      | cons h rest =>
          simp only [Swap.succeed] at hstep
          cases hone : compactOne xet old.objects size new.objects h with
          | error e =>
              simp only [hone, Option.some.injEq] at hstep
              subst hstep
              exact Or.inl rfl
          | ok objects =>
              simp only [hone, Option.some.injEq] at hstep
              subst hstep
              exact ⟨rfl, done ++ [h], _, by rw [hdone, List.append_assoc]; rfl, rfl,
                hnew.next hone⟩
  | fingerprint =>
      obtain ⟨rfl, new, rfl, hnew⟩ := hinv
      obtain rfl := Option.some.inj hstep
      exact ⟨rfl, new, rfl, hnew⟩
  | createRegistry =>
      obtain ⟨rfl, new, rfl, hnew⟩ := hinv
      obtain rfl := Option.some.inj hstep
      exact ⟨rfl, _, rfl, hnew, _, rfl, by simp⟩
  | readRegistry =>
      obtain ⟨rfl, new, rfl, hnew, hreg⟩ := hinv
      simp only [Swap.succeed, Option.map_some, Option.some.injEq] at hstep
      cases hr : old.registry with
      | none =>
          simp only [hr] at hstep
          subst hstep
          exact ⟨rfl, new, rfl, hnew, fun r h => by rw [hr] at h; simp at h⟩
      | some r =>
          simp only [hr] at hstep
          subst hstep
          exact ⟨rfl, r, [], new, hr, rfl, rfl, hnew, hreg⟩
  | copying rest =>
      obtain ⟨rfl, r, done, new, hr, hdone, rfl, hnew, hreg⟩ := hinv
      cases rest with
      | nil =>
          obtain rfl := Option.some.inj hstep
          rw [List.append_nil] at hdone
          refine ⟨rfl, new, rfl, hnew, fun r' hr' => ?_⟩
          rw [hr, Option.some.injEq] at hr'
          rw [← hr', hdone]
          exact hreg
      | cons e rest =>
          obtain rfl := Option.some.inj hstep
          exact ⟨rfl, r, done ++ [e], _, hr, by rw [hdone, List.append_assoc]; rfl, rfl, hnew,
            hreg.next hdone⟩
  | moveAside =>
      obtain ⟨rfl, new, rfl, hnew⟩ := hinv
      obtain rfl := Option.some.inj hstep
      exact ⟨rfl, rfl, new, rfl, hnew⟩
  | moveIn =>
      obtain ⟨rfl, rfl, new, rfl, hnew⟩ := hinv
      obtain rfl := Option.some.inj hstep
      exact ⟨new, rfl, hnew⟩
  | rollBack =>
      obtain ⟨rfl, rfl⟩ := hinv
      obtain rfl := Option.some.inj hstep
      exact Or.inl rfl
  | removeBackup =>
      obtain ⟨new, rfl, hnew⟩ := hinv
      obtain rfl := Option.some.inj hstep
      exact ⟨new, rfl, hnew⟩
  | removeCompact e =>
      obtain rfl := Option.some.inj hstep
      exact Or.inl hinv
  | finished r => simp [Swap.succeed] at hstep
  | crashed => simp [Swap.succeed] at hstep

theorem swapInv_failed {s s' : Swap Obj} {left : Option (StoreDir Obj)}
    (hinv : SwapInv xet size live old leftover s) (hstep : s.failed left = some s') :
    SwapInv xet size live old leftover s' := by
  obtain ⟨pc, store, compact, backup⟩ := s
  cases pc with
  | compacting rest =>
      cases rest <;> (obtain rfl := Option.some.inj hstep; exact Or.inl hinv.1)
  | moveIn =>
      obtain rfl := Option.some.inj hstep
      exact ⟨hinv.1, hinv.2.1⟩
  | rollBack =>
      obtain rfl := Option.some.inj hstep
      exact Or.inr hinv.1
  | removeBackup =>
      obtain rfl := Option.some.inj hstep
      exact hinv
  | removeCompact e =>
      obtain rfl := Option.some.inj hstep
      exact Or.inl hinv
  | createStore => obtain rfl := Option.some.inj hstep; exact Or.inl hinv.1
  | fingerprint => obtain rfl := Option.some.inj hstep; exact hinv.1
  | createRegistry => obtain rfl := Option.some.inj hstep; exact hinv.1
  | readRegistry => obtain rfl := Option.some.inj hstep; exact hinv.1
  | copying rest => obtain rfl := Option.some.inj hstep; exact hinv.1
  | moveAside => obtain rfl := Option.some.inj hstep; exact Or.inl hinv.1
  | finished r => simp [Swap.failed] at hstep
  | crashed => simp [Swap.failed] at hstep

/-- **The invariant is kept by every step.** -/
theorem swapInv_step {s s' : Swap Obj} {a : SwapAct Obj}
    (hinv : SwapInv xet size live old leftover s) (hstep : swapStep xet size live s a = some s') :
    SwapInv xet size live old leftover s' := by
  cases a with
  | ok => exact swapInv_succeed hinv hstep
  | fail left => exact swapInv_failed hinv hstep
  | crash left =>
      have hcrashed : s'.pc = .crashed := by
        obtain ⟨pc, store, compact, backup⟩ := s
        cases pc <;> simp only [swapStep, Swap.killed, Option.some.injEq, reduceCtorEq] at hstep <;>
          rw [← hstep]
      unfold SwapInv
      rw [hcrashed]
      trivial

theorem storeWhole_old : StoreWhole xet size live old leftover (some old) :=
  ⟨old, rfl, Or.inl rfl⟩

theorem not_storeWhole_none : ¬ StoreWhole xet size live old leftover none := by
  rintro ⟨d, hd, -⟩
  simp at hd

theorem swapKeeps_iff {s : Swap Obj} (hin : s.pc ≠ .moveIn) (hback : s.pc ≠ .rollBack) :
    SwapKeeps xet size live old leftover s ↔ StoreWhole xet size live old leftover s.store := by
  unfold SwapKeeps
  cases hpc : s.pc <;> first | exact Iff.rfl | exact absurd hpc hin | exact absurd hpc hback

/-- Only the renames touch the store. -/
theorem swapStep_frame {s s' : Swap Obj} {a : SwapAct Obj} (haside : s.pc ≠ .moveAside)
    (hin : s.pc ≠ .moveIn) (hback : s.pc ≠ .rollBack)
    (hstep : swapStep xet size live s a = some s') :
    s'.store = s.store ∧ s'.pc ≠ .moveIn ∧ s'.pc ≠ .rollBack := by
  obtain ⟨pc, store, compact, backup⟩ := s
  cases a with
  | ok =>
      cases pc with
      | compacting rest =>
          cases rest with
          | nil => obtain rfl := Option.some.inj hstep; simp
          | cons h rest =>
              simp only [swapStep, Swap.succeed] at hstep
              split at hstep
              · split at hstep <;> (obtain rfl := Option.some.inj hstep; simp)
              · simp at hstep
      | createRegistry =>
          obtain ⟨new, -, rfl⟩ := Option.map_eq_some_iff.1 hstep
          simp
      | readRegistry =>
          obtain ⟨d, -, rfl⟩ := Option.map_eq_some_iff.1 hstep
          cases d.registry <;> simp
      | copying rest =>
          cases rest with
          | nil => obtain rfl := Option.some.inj hstep; simp
          | cons e rest =>
              obtain ⟨new, -, rfl⟩ := Option.map_eq_some_iff.1 hstep
              simp
      | moveAside => exact absurd rfl haside
      | moveIn => exact absurd rfl hin
      | rollBack => exact absurd rfl hback
      | createStore => obtain rfl := Option.some.inj hstep; simp
      | fingerprint => obtain rfl := Option.some.inj hstep; simp
      | removeBackup => obtain rfl := Option.some.inj hstep; simp
      | removeCompact e => obtain rfl := Option.some.inj hstep; simp
      | finished r => simp [swapStep, Swap.succeed] at hstep
      | crashed => simp [swapStep, Swap.succeed] at hstep
  | fail left =>
      cases pc with
      | compacting rest => cases rest <;> (obtain rfl := Option.some.inj hstep; simp)
      | moveAside => exact absurd rfl haside
      | moveIn => exact absurd rfl hin
      | rollBack => exact absurd rfl hback
      | finished r => simp [swapStep, Swap.failed] at hstep
      | crashed => simp [swapStep, Swap.failed] at hstep
      | _ => obtain rfl := Option.some.inj hstep; simp
  | crash left =>
      cases pc with
      | finished r => simp [swapStep, Swap.killed] at hstep
      | crashed => simp [swapStep, Swap.killed] at hstep
      | _ => obtain rfl := Option.some.inj hstep; simp

/-- **One step keeps a whole store exactly if it is safe.** -/
theorem swapKeeps_step {s s' : Swap Obj} {a : SwapAct Obj}
    (hinv : SwapInv xet size live old leftover s) (hkeeps : SwapKeeps xet size live old leftover s)
    (hstep : swapStep xet size live s a = some s') :
    SwapKeeps xet size live old leftover s' ↔ SwapSafe s a := by
  by_cases haside : s.pc = .moveAside
  · have hsafe : SwapSafe s a := by
      unfold SwapSafe
      rw [haside]
      trivial
    refine iff_of_true ?_ hsafe
    obtain ⟨pc, store, compact, backup⟩ := s
    obtain rfl : pc = .moveAside := haside
    obtain ⟨rfl, -⟩ := hinv
    cases a with
    | ok => obtain rfl := Option.some.inj hstep; trivial
    | fail left => obtain rfl := Option.some.inj hstep; exact storeWhole_old
    | crash left => obtain rfl := Option.some.inj hstep; exact storeWhole_old
  by_cases hin : s.pc = .moveIn
  · obtain ⟨pc, store, compact, backup⟩ := s
    obtain rfl : pc = .moveIn := hin
    obtain ⟨rfl, rfl, new, rfl, hnew⟩ := hinv
    cases a with
    | ok =>
        obtain rfl := Option.some.inj hstep
        exact iff_of_true ⟨new, rfl, Or.inr hnew⟩ trivial
    | fail left => obtain rfl := Option.some.inj hstep; exact iff_of_true trivial trivial
    | crash left => obtain rfl := Option.some.inj hstep; exact iff_of_false not_storeWhole_none id
  by_cases hback : s.pc = .rollBack
  · obtain ⟨pc, store, compact, backup⟩ := s
    obtain rfl : pc = .rollBack := hback
    obtain ⟨rfl, rfl⟩ := hinv
    cases a with
    | ok => obtain rfl := Option.some.inj hstep; exact iff_of_true storeWhole_old trivial
    | fail left => obtain rfl := Option.some.inj hstep; exact iff_of_false not_storeWhole_none id
    | crash left => obtain rfl := Option.some.inj hstep; exact iff_of_false not_storeWhole_none id
  · have hsafe : SwapSafe s a := by
      unfold SwapSafe
      split
      · exact hin ‹_›
      · exact hback ‹_›
      · exact hback ‹_›
      · trivial
    obtain ⟨hstore, hin', hback'⟩ := swapStep_frame haside hin hback hstep
    refine iff_of_true ?_ hsafe
    rw [swapKeeps_iff hin' hback', hstore]
    exact (swapKeeps_iff hin hback).1 hkeeps

/-- As long as a run goes on, nothing is lost. -/
theorem swapKeeps_of_running {s : Swap Obj} (hinv : SwapInv xet size live old leftover s)
    (hgoes : ¬ s.pc.Stopped) : SwapKeeps xet size live old leftover s := by
  obtain ⟨pc, store, compact, backup⟩ := s
  cases pc with
  | moveIn => trivial
  | rollBack => trivial
  | finished r => exact absurd trivial hgoes
  | crashed => exact absurd trivial hgoes
  | removeBackup =>
      obtain ⟨new, rfl, hnew⟩ := hinv
      exact ⟨new, rfl, Or.inr hnew⟩
  | removeCompact e => exact ⟨old, hinv, Or.inl rfl⟩
  | _ => exact ⟨old, hinv.1, Or.inl rfl⟩

end Step

/-! ## Runs -/

section Run

variable {Obj : Type} (xet : Xet Obj) (size : String → Option Nat) (live : Finset String)

theorem swapSafe_ok (s : Swap Obj) : SwapSafe s .ok := by
  unfold SwapSafe
  cases s.pc <;> trivial

theorem swapStep_stopped {s : Swap Obj} (hstopped : s.pc.Stopped) (a : SwapAct Obj) :
    swapStep xet size live s a = none := by
  obtain ⟨pc, store, compact, backup⟩ := s
  cases pc <;> simp only [SwapPc.Stopped] at hstopped <;> cases a <;> rfl

theorem swapInv_run {old : StoreDir Obj} {leftover backup : Option (StoreDir Obj)}
    {acts : List (SwapAct Obj)} {s : Swap Obj}
    (hrun : Machine.run (swapStep xet size live) (Swap.start old leftover backup) acts = some s) :
    SwapInv xet size live old leftover s := by
  have hstart : SwapInv xet size live old leftover (Swap.start old leftover backup) := ⟨rfl, rfl⟩
  exact Machine.run_invariant_of_step (fun _ _ _ hinv hstep => swapInv_step hinv hstep) hstart hrun

/-- **The store is whole wherever a run stops, exactly if every step of the run is safe**: the process
    does not die while no store is at its path, and if the compacted store cannot be moved in, the
    old one can be moved back. -/
theorem swap_whole_iff (old : StoreDir Obj) (leftover backup : Option (StoreDir Obj))
    (acts : List (SwapAct Obj)) (s : Swap Obj)
    (hrun : Machine.run (swapStep xet size live) (Swap.start old leftover backup) acts = some s)
    (hstopped : s.pc.Stopped) :
    StoreWhole xet size live old leftover s.store ↔
      Machine.Admissible (swapStep xet size live) SwapSafe (Swap.start old leftover backup)
        acts := by
  have hpc : s.pc ≠ .moveIn ∧ s.pc ≠ .rollBack := by
    constructor <;> (intro h; rw [h] at hstopped; exact hstopped)
  have hall : Machine.Admissible (swapStep xet size live) SwapSafe (Swap.start old leftover backup)
      acts ↔ ∀ before rest s', acts = before ++ rest →
        Machine.run (swapStep xet size live) (Swap.start old leftover backup) before = some s' →
          SwapKeeps xet size live old leftover s' :=
    @Machine.admissible_iff_of_step _ _ _ _ (SwapInv xet size live old leftover) _ _
      (fun _ _ _ _ hinv hstep => swapInv_step hinv hstep)
      (fun _ _ _ _ hinv hkeeps hstep => swapKeeps_step hinv hkeeps hstep) _ _ ⟨rfl, rfl⟩
      storeWhole_old hrun
  rw [hall, ← swapKeeps_iff hpc.1 hpc.2]
  constructor
  · intro hkeeps before rest s' hsplit hbefore
    rw [hsplit, Machine.run_append, hbefore, Option.bind_some] at hrun
    by_cases hmid : s'.pc.Stopped
    · cases rest with
      | nil => exact (Option.some.inj hrun) ▸ hkeeps
      | cons a rest =>
          simp [Machine.run, swapStep_stopped xet size live hmid a] at hrun
    · exact swapKeeps_of_running (swapInv_run xet size live hbefore) hmid
  · intro hkeeps
    exact hkeeps acts [] s (List.append_nil acts).symm hrun

/-- **A run that finishes is `pruneStore`**, if it had to start from nothing and the rollback, when it
    came to it, did not fail. -/
theorem swap_refines_pruneStore {Oid : Type} [DecidableEq Oid] {repos : List (RepoView Oid)}
    {want : Finset String} (hdead : want \ live ≠ ∅)
    (hsized : (inOrder live).find? (fun h => (sizeIn repos h).isNone) = none) {old : StoreDir Obj}
    {backup : Option (StoreDir Obj)} {acts : List (SwapAct Obj)} {s : Swap Obj}
    {r : Except SwapError Unit}
    (hrun : Machine.run (swapStep xet (sizeIn repos) live) (Swap.start old none backup) acts = some s)
    (hend : s.pc = .finished r)
    (hsafe : Machine.Admissible (swapStep xet (sizeIn repos) live) SwapSafe
      (Swap.start old none backup) acts) :
    ∃ env d, s.store = some d ∧
      d.objects = pruneResult old.objects (pruneStore xet env repos old.objects want live) := by
  have hinv := swapInv_run xet (sizeIn repos) live hrun
  obtain ⟨d, hd, -⟩ := (swap_whole_iff xet (sizeIn repos) live old none backup acts s hrun
    (by rw [hend]; trivial)).2 hsafe
  unfold SwapInv at hinv
  rw [hend] at hinv
  cases r with
  | ok u =>
      obtain ⟨new, hnew, hcompacted⟩ := hinv
      refine ⟨⟨true, true, true, true, true⟩, new, hnew, ?_⟩
      have hobjects : compact xet old.objects (sizeIn repos) live = .ok new.objects :=
        hcompacted.objects
      unfold pruneStore
      simp only [if_neg hdead, hsized, hobjects]
      rfl
  | error e =>
      refine ⟨⟨true, false, true, true, true⟩, d, hd, ?_⟩
      have hold : s.store = some old := by
        refine hinv.resolve_right (fun hnone => ?_)
        rw [hd] at hnone
        simp at hnone
      rw [hold, Option.some.injEq] at hd
      subst hd
      unfold pruneStore
      simp only [if_neg hdead, hsized]
      cases compact xet old.objects (sizeIn repos) live <;> rfl

end Run

namespace Sample

/-- A store of two files, shared by one repository. -/
def twoFiles : StoreDir Char := ⟨{'a', 'b'}, some ⟨[⟨"r", true, []⟩], by decide⟩⟩

/-- A run over this store that keeps one of the files. -/
def swapRun (acts : List (SwapAct Char)) : Option (Swap Char) :=
  Machine.run (swapStep xet (fun _ => some 1) {hash 'a'}) (Swap.start twoFiles none none) acts

/-- Whether a state has a store, and whether the run has come to its end. -/
def swapView (s : Swap Char) : Bool × Bool :=
  (s.store.isSome, match s.pc with
    | .finished _ => true
    | .crashed => true
    | _ => false)

theorem stopped_of_view {s : Swap Char} {b : Bool} (h : swapView s = (b, true)) :
    s.pc.Stopped := by
  unfold swapView at h
  cases hpc : s.pc with
  | finished r => trivial
  | crashed => trivial
  | _ => simp [hpc] at h

theorem not_whole_of_view {s : Swap Char} {b : Bool} (h : swapView s = (false, b))
    {size : String → Option Nat} {live : Finset String} :
    ¬ StoreWhole xet size live twoFiles none s.store := by
  rintro ⟨d, hd, -⟩
  have hnone : s.store.isSome = false := congrArg Prod.fst h
  rw [hd] at hnone
  simp at hnone

/-- Every step up to the renames succeeds. -/
def uptoSwap : List (SwapAct Char) := List.replicate 9 .ok

end Sample

/-- A process that dies between the renames leaves no store at all, and neither does a rollback that
    fails. -/
theorem swap_loses_store :
    (∃ s, Sample.swapRun (Sample.uptoSwap ++ [.crash none]) = some s ∧ s.pc.Stopped ∧
      ¬ StoreWhole Sample.xet (fun _ => some 1) {Sample.hash 'a'} Sample.twoFiles none s.store) ∧
    ∃ s, Sample.swapRun (Sample.uptoSwap ++ [.fail none, .fail none]) = some s ∧ s.pc.Stopped ∧
      ¬ StoreWhole Sample.xet (fun _ => some 1) {Sample.hash 'a'} Sample.twoFiles none s.store := by
  have hcrash : (Sample.swapRun (Sample.uptoSwap ++ [.crash none])).map Sample.swapView =
      some (false, true) := by
    decide +kernel
  have hfail : (Sample.swapRun (Sample.uptoSwap ++ [.fail none, .fail none])).map
      Sample.swapView = some (false, true) := by
    decide +kernel
  obtain ⟨s, hs, hview⟩ := Option.map_eq_some_iff.1 hcrash
  obtain ⟨t, ht, hview'⟩ := Option.map_eq_some_iff.1 hfail
  exact ⟨⟨s, hs, Sample.stopped_of_view hview, Sample.not_whole_of_view hview⟩,
    t, ht, Sample.stopped_of_view hview', Sample.not_whole_of_view hview'⟩

theorem swap_whole_iff_succeeds : ∃ s, Sample.swapRun (Sample.uptoSwap ++ [.ok, .ok]) = some s ∧
    StoreWhole Sample.xet (fun _ => some 1) {Sample.hash 'a'} Sample.twoFiles none s.store := by
  have hrun : (Sample.swapRun (Sample.uptoSwap ++ [.ok, .ok])).map Sample.swapView =
      some (true, true) := by
    decide +kernel
  obtain ⟨s, hs, hview⟩ := Option.map_eq_some_iff.1 hrun
  refine ⟨s, hs, (swap_whole_iff Sample.xet (fun _ => some 1) {Sample.hash 'a'} Sample.twoFiles none
    none _ s hs (Sample.stopped_of_view hview)).2 ?_⟩
  refine Machine.admissible_of_forall (fun s a ha => ?_) _
  obtain rfl : a = .ok := by
    simp only [Sample.uptoSwap, List.mem_append, List.mem_replicate, List.mem_cons,
      List.not_mem_nil, or_false] at ha
    tauto
  exact swapSafe_ok s

end BaleForGit
