import Mathlib.Algebra.Ring.Nat
import Mathlib.Data.List.Nodup
import BaleForGit.Library.Machine

set_option autoImplicit false

/-! # The blob cache of a mount (`mount/reader.rs`)

`BaleLru` keeps reconstructed files up to a byte budget, oldest first in `order`. `materialize` takes
its lock twice: once to look the file up and, after a miss, again to put what it reconstructed. In
between other opens run, so the same key may have been put by then. `put` does not look for that: the
key goes into `order` once more and its bytes are counted once more, unless making room happens to
evict the old blob first.

Counters are unbounded here: with the budget of 1 GiB none of them comes near `2 ^ 64` before the
first double put, and from there on nothing is claimed. -/

namespace BaleForGit

/-- `BALE_LRU_BUDGET_BYTES`. -/
def baleLruBudgetBytes : Nat := 1024 * 1024 * 1024

/-- `BaleLru`; `order` has the oldest key first. -/
structure BaleLru where
  map : String → Option (List UInt8)
  order : List String
  bytesUsed : Nat
  budget : Nat

namespace BaleLru

/-- `BaleLru::new`. -/
def new (budget : Nat) : BaleLru := ⟨fun _ => none, [], 0, budget⟩

variable (c : BaleLru)

/-- `get`: a hit moves the key to the back. -/
def get (key : String) : Option (List UInt8) × BaleLru :=
  match c.map key with
  | none => (none, c)
  | some v =>
    (some v, if key ∈ c.order then { c with order := c.order.erase key ++ [key] } else c)

/-- Take `victim` out of the map. -/
def remove (victim : String) : BaleLru :=
  match c.map victim with
  | none => c
  | some old => { c with
      map := Function.update c.map victim none
      bytesUsed := c.bytesUsed - old.length }

/-- The loop of `put`, with `order` what it has left of the order. -/
def makeRoomFrom (size : Nat) (c : BaleLru) : List String → BaleLru
  | [] => { c with order := [] }
  | victim :: order =>
    if c.bytesUsed + size > c.budget then makeRoomFrom size (c.remove victim) order
    else { c with order := victim :: order }

def makeRoom (size : Nat) : BaleLru := makeRoomFrom size c c.order

/-- The keys that making room evicts. -/
def victims (size : Nat) : List String :=
  c.order.take (c.order.length - (c.makeRoom size).order.length)

/-- `put`. -/
def put (key : String) (blob : List UInt8) : BaleLru :=
  if blob.length > c.budget then c
  else
    let room := c.makeRoom blob.length
    { room with
      bytesUsed := room.bytesUsed + blob.length
      order := room.order ++ [key]
      map := Function.update room.map key (some blob) }

/-- The size of the blob under a key. -/
def size (key : String) : Nat :=
  match c.map key with
  | none => 0
  | some blob => blob.length

/-- The bytes of the blobs under some keys. -/
def bytesOf (keys : List String) : Nat := (keys.map c.size).sum

/-- The bytes of the blob under `key` and of those used after it. -/
def bytesFrom (key : String) : Nat := c.bytesOf (c.order.dropWhile (fun k => decide (k ≠ key)))

end BaleLru

/-! ## Opens -/

/-- The cache of a mount, and the opens that missed it and have not come back. `last` is, for each
    key, the blob last put under it, unless that was too big or has been evicted; nothing reads it. -/
structure Opens where
  lru : BaleLru
  pending : List String
  last : String → Option (List UInt8)

inductive OpenAct where
  /-- The first half of `materialize`. -/
  | lookup (key : String)
  /-- The second half, with what was reconstructed. -/
  | store (key : String) (blob : List UInt8)
  /-- The reconstruction failed, or stays in its tempfile. -/
  | leave (key : String)
deriving DecidableEq

namespace Opens

def new (budget : Nat) : Opens := ⟨BaleLru.new budget, [], fun _ => none⟩

/-- `last` after a put. -/
def noteStore (s : Opens) (key : String) (blob : List UInt8) : String → Option (List UInt8) :=
  if blob.length > s.lru.budget then Function.update s.last key none
  else Function.update
    (fun k => if k ∈ s.lru.victims blob.length then none else s.last k) key (some blob)

def step (s : Opens) (a : OpenAct) : Option Opens :=
  match a with
  | .lookup key =>
    match s.lru.get key with
    | (some _, lru) => some { s with lru := lru }
    | (none, lru) => some { s with lru := lru, pending := key :: s.pending }
  | .store key blob =>
    if key ∈ s.pending then
      some ⟨s.lru.put key blob, s.pending.erase key, s.noteStore key blob⟩
    else none
  | .leave key =>
    if key ∈ s.pending then some { s with pending := s.pending.erase key } else none

end Opens

/-! ## The representation -/

/-- `order` is the keys of the map, each once, and `bytes_used` what the map holds, within the
    budget. -/
structure BaleLru.Sound (c : BaleLru) : Prop where
  nodup : c.order.Nodup
  mem_order : ∀ key, key ∈ c.order ↔ c.map key ≠ none
  bytesUsed_eq : c.bytesUsed = c.bytesOf c.order
  bytesUsed_le : c.bytesUsed ≤ c.budget

/-- The representation holds, and `get` returns the blob last put under the key, unless it has been
    evicted or was too big. -/
structure Opens.Valid (s : Opens) : Prop where
  sound : s.lru.Sound
  get_eq : ∀ key, (s.lru.get key).1 = s.last key

/-- A put does not find its key in the map, or evicts the old blob to make room for the new one. -/
def Opens.FreshStore (s : Opens) (a : OpenAct) : Prop :=
  match a with
  | .store key blob => key ∈ s.lru.order →
      blob.length ≤ s.lru.budget ∧ s.lru.budget < blob.length + s.lru.bytesFrom key
  | _ => True

namespace BaleLru

variable {c : BaleLru}

@[simp] theorem get_fst (c : BaleLru) (key : String) : (c.get key).1 = c.map key := by
  unfold get
  cases h : c.map key <;> rfl

theorem bytesOf_append (c : BaleLru) (ks ls : List String) :
    c.bytesOf (ks ++ ls) = c.bytesOf ks + c.bytesOf ls := by
  simp [bytesOf]

theorem bytesOf_congr {d : BaleLru} {keys : List String} (h : ∀ k ∈ keys, d.map k = c.map k) :
    d.bytesOf keys = c.bytesOf keys := by
  unfold bytesOf
  congr 1
  refine List.map_congr_left (fun k hk => ?_)
  unfold size
  rw [h k hk]

theorem bytesOf_suffix_le {ks ls : List String} (h : ks <:+ ls) : c.bytesOf ks ≤ c.bytesOf ls := by
  obtain ⟨before, rfl⟩ := h
  rw [bytesOf_append]
  omega

theorem map_remove (c : BaleLru) (victim : String) :
    (c.remove victim).map = Function.update c.map victim none := by
  unfold remove
  cases h : c.map victim with
  | none =>
      simp only
      rw [← h, Function.update_eq_self]
  | some old => rfl

@[simp] theorem budget_remove (c : BaleLru) (victim : String) :
    (c.remove victim).budget = c.budget := by
  unfold remove
  cases c.map victim <;> rfl

theorem bytesUsed_remove (c : BaleLru) (victim : String) :
    (c.remove victim).bytesUsed = c.bytesUsed - c.size victim := by
  unfold remove size
  cases c.map victim <;> simp

/-- **What the loop of `put` does** to a sound cache: it evicts from the front until the blob fits,
    and it comes as far as a key when the blob does not fit with what was used from there on. -/
theorem makeRoomFrom_spec {size : Nat} {order : List String} (hnodup : order.Nodup)
    (hmem : ∀ key, key ∈ order ↔ c.map key ≠ none) (hused : c.bytesUsed = c.bytesOf order)
    (hfit : size ≤ c.budget) :
    ∃ gone, order = gone ++ (makeRoomFrom size c order).order ∧
      (makeRoomFrom size c order).budget = c.budget ∧
      (∀ key, (makeRoomFrom size c order).map key = if key ∈ gone then none else c.map key) ∧
      (makeRoomFrom size c order).bytesUsed = c.bytesOf (makeRoomFrom size c order).order ∧
      (makeRoomFrom size c order).bytesUsed + size ≤ c.budget ∧
      ∀ key ∈ order, key ∈ gone ↔
        c.budget < size + c.bytesOf (order.dropWhile (fun k => decide (k ≠ key))) := by
  induction order generalizing c with
  | nil =>
      refine ⟨[], rfl, rfl, fun key => by simp [makeRoomFrom], hused, ?_, by simp⟩
      simp only [makeRoomFrom, hused, bytesOf, List.map_nil, List.sum_nil]
      omega
  | cons victim order ih =>
      obtain ⟨hvictim, hrest⟩ := List.nodup_cons.1 hnodup
      have hsplit : c.bytesOf (victim :: order) = c.size victim + c.bytesOf order := rfl
      unfold makeRoomFrom
      split_ifs with hfull
      · have hsame : ∀ k ∈ order, (c.remove victim).map k = c.map k := by
          intro k hk
          rw [map_remove, Function.update_of_ne]
          rintro rfl
          exact hvictim hk
        have hmem' : ∀ key, key ∈ order ↔ (c.remove victim).map key ≠ none := by
          intro key
          by_cases hkey : key = victim
          · subst hkey
            rw [map_remove, Function.update_self]
            simp [hvictim]
          · rw [map_remove, Function.update_of_ne hkey, ← hmem, List.mem_cons]
            simp [hkey]
        have hused' : (c.remove victim).bytesUsed = (c.remove victim).bytesOf order := by
          rw [bytesUsed_remove, bytesOf_congr hsame, hused, hsplit]
          omega
        obtain ⟨gone, horder, hbudget, hmap, hbytes, hle, hiff⟩ :=
          ih hrest hmem' hused' (by rw [budget_remove]; exact hfit)
        have hleft : ∀ ks, ks <:+ order → (c.remove victim).bytesOf ks = c.bytesOf ks :=
          fun ks hks => bytesOf_congr (fun k hk => hsame k (hks.subset hk))
        rw [budget_remove] at hbudget hle
        refine ⟨victim :: gone, ?_, hbudget, fun key => ?_, ?_, hle, fun key hkey => ?_⟩
        · rw [List.cons_append, ← horder]
        · rw [hmap, map_remove]
          by_cases hkey : key = victim
          · subst hkey
            simp
          · rw [Function.update_of_ne hkey]
            simp [hkey]
        · rw [hbytes, hleft _ ⟨gone, horder.symm⟩]
        · by_cases hself : key = victim
          · subst hself
            simp only [List.mem_cons_self, List.dropWhile_cons, ne_eq, not_true_eq_false,
              decide_false, Bool.false_eq_true, if_false, true_iff]
            omega
          · have hin : key ∈ order := (List.mem_cons.1 hkey).resolve_left hself
            have hdrop : (victim :: order).dropWhile (fun k => decide (k ≠ key)) =
                order.dropWhile (fun k => decide (k ≠ key)) := by
              rw [List.dropWhile_cons, if_pos (decide_eq_true (Ne.symm hself))]
            rw [hdrop, List.mem_cons, or_iff_right hself, hiff key hin, budget_remove,
              hleft _ (List.dropWhile_suffix _)]
      · refine ⟨[], rfl, rfl, fun key => by simp, hused, by simp only; omega, fun key _ => ?_⟩
        have hle := bytesOf_suffix_le (c := c)
          (List.dropWhile_suffix (l := victim :: order) (fun k => decide (k ≠ key)))
        simp only [List.not_mem_nil, false_iff]
        omega

/-- A hit keeps the representation. -/
theorem Sound.get (hsound : c.Sound) (key : String) : (c.get key).2.Sound := by
  unfold BaleLru.get
  cases hmap : c.map key with
  | none => exact hsound
  | some v =>
      have hin : key ∈ c.order := (hsound.mem_order key).2 (by rw [hmap]; simp)
      have hperm : (c.order.erase key ++ [key]).Perm c.order :=
        (List.perm_append_singleton key _).trans (List.perm_cons_erase hin).symm
      simp only [hin, if_true]
      refine ⟨hperm.nodup_iff.2 hsound.nodup, fun k => ?_, ?_, hsound.bytesUsed_le⟩
      · rw [hperm.mem_iff]
        exact hsound.mem_order k
      · exact hsound.bytesUsed_eq.trans (hperm.map c.size).sum_nat.symm

/-- What is evicted to make room in a sound cache. -/
theorem Sound.makeRoom (hsound : c.Sound) {size : Nat} (hfit : size ≤ c.budget) :
    c.order = c.victims size ++ (c.makeRoom size).order ∧
      (c.makeRoom size).budget = c.budget ∧
      (∀ key, (c.makeRoom size).map key = if key ∈ c.victims size then none else c.map key) ∧
      (c.makeRoom size).bytesUsed = c.bytesOf (c.makeRoom size).order ∧
      (c.makeRoom size).bytesUsed + size ≤ c.budget ∧
      ∀ key ∈ c.order, key ∈ c.victims size ↔ c.budget < size + c.bytesFrom key := by
  obtain ⟨gone, horder, hrest⟩ :=
    makeRoomFrom_spec hsound.nodup hsound.mem_order hsound.bytesUsed_eq hfit
  have hgone : c.victims size = gone := by
    unfold victims BaleLru.makeRoom
    have hlen := congrArg List.length horder
    rw [List.length_append] at hlen
    have hcount : c.order.length - (makeRoomFrom size c c.order).order.length = gone.length := by
      omega
    rw [hcount]
    conv_lhs => rw [horder]
    exact List.take_left
  rw [hgone]
  exact ⟨horder, hrest⟩

/-- **A put keeps the representation** exactly when the key is not left in `order`. -/
theorem Sound.put_iff (hsound : c.Sound) {key : String} {blob : List UInt8}
    (hfit : blob.length ≤ c.budget) :
    (c.put key blob).Sound ↔ key ∉ (c.makeRoom blob.length).order := by
  obtain ⟨horder, hbudget, hmap, hbytes, hle, -⟩ := hsound.makeRoom hfit
  have hput : c.put key blob = { c.makeRoom blob.length with
      bytesUsed := (c.makeRoom blob.length).bytesUsed + blob.length
      order := (c.makeRoom blob.length).order ++ [key]
      map := Function.update (c.makeRoom blob.length).map key (some blob) } := by
    unfold BaleLru.put
    rw [if_neg (by omega)]
  have hnodup := hsound.nodup
  rw [horder, List.nodup_append] at hnodup
  obtain ⟨-, hleft, hdisj⟩ := hnodup
  constructor
  · intro hput' hin
    have hdup := hput'.nodup
    rw [hput, List.nodup_append] at hdup
    exact hdup.2.2 key hin key (List.mem_singleton_self key) rfl
  · intro hnew
    rw [hput]
    refine ⟨?_, fun k => ?_, ?_, ?_⟩
    · refine List.nodup_append.2 ⟨hleft, List.nodup_singleton key, fun k hk l hl => ?_⟩
      rw [List.mem_singleton.1 hl]
      rintro rfl
      exact hnew hk
    · by_cases hk : k = key
      · subst hk
        simp
      · simp only [List.mem_append, List.mem_singleton, hk, or_false,
          Function.update_of_ne hk, hmap]
        split_ifs with hgone
        · simp only [ne_eq, not_true_eq_false, iff_false]
          exact fun hin => hdisj k hgone k hin rfl
        · rw [← hsound.mem_order, horder, List.mem_append, or_iff_right hgone]
    · have hsame : ∀ k ∈ (c.makeRoom blob.length).order,
          Function.update (c.makeRoom blob.length).map key (some blob) k = c.map k := by
        intro k hk
        have hne : k ≠ key := by
          rintro rfl
          exact hnew hk
        rw [Function.update_of_ne hne, hmap, if_neg]
        exact fun hgone => hdisj k hgone k hk rfl
      simp only [bytesOf_append]
      rw [bytesOf_congr hsame, hbytes]
      simp [bytesOf, size]
    · simp only [hbudget]
      exact hle

end BaleLru

/-! ## Opens in any order -/

namespace Opens

variable {s s' : Opens}

theorem valid_new (budget : Nat) : (new budget).Valid where
  sound := ⟨List.nodup_nil, fun key => by simp [new, BaleLru.new], rfl, Nat.zero_le _⟩
  get_eq _ := rfl

/-- A lookup changes neither the map nor `last`. -/
theorem Valid.lookup (hvalid : s.Valid) {key : String} (hstep : s.step (.lookup key) = some s') :
    s'.Valid := by
  have hsound := hvalid.sound.get key
  have hgets : ∀ k, ((s.lru.get key).2.get k).1 = s.last k := by
    intro k
    rw [← hvalid.get_eq k, BaleLru.get_fst, BaleLru.get_fst]
    unfold BaleLru.get
    cases s.lru.map key with
    | none => rfl
    | some v =>
        simp only
        split_ifs <;> rfl
  simp only [step] at hstep
  split at hstep
  all_goals
    next hget =>
      obtain rfl := Option.some.inj hstep
      rw [hget] at hsound hgets
      exact ⟨hsound, hgets⟩

/-- **One step** keeps the cache valid exactly when it is no double put. -/
theorem Valid.step_iff (hvalid : s.Valid) {a : OpenAct} (hstep : s.step a = some s') :
    s'.Valid ↔ s.FreshStore a := by
  cases a with
  | lookup key => exact iff_of_true (hvalid.lookup hstep) trivial
  | leave key =>
      simp only [step] at hstep
      split_ifs at hstep
      obtain rfl := Option.some.inj hstep
      exact iff_of_true ⟨hvalid.sound, hvalid.get_eq⟩ trivial
  | store key blob =>
      simp only [step] at hstep
      split_ifs at hstep with hpending
      obtain rfl := Option.some.inj hstep
      simp only [FreshStore]
      by_cases hbig : blob.length > s.lru.budget
      · -- nothing is stored, so what is there under the key is not what was put last
        have hput : s.lru.put key blob = s.lru := by
          unfold BaleLru.put
          rw [if_pos hbig]
        have hnote : s.noteStore key blob = Function.update s.last key none := by
          unfold noteStore
          rw [if_pos hbig]
        rw [hput, hnote]
        constructor
        · intro hv hin
          have hget := hv.get_eq key
          simp only [BaleLru.get_fst, Function.update_self] at hget
          exact absurd hget ((hvalid.sound.mem_order key).1 hin)
        · intro hfresh
          refine ⟨hvalid.sound, fun k => ?_⟩
          by_cases hk : k = key
          · subst hk
            simp only [BaleLru.get_fst, Function.update_self]
            by_contra hne
            have hfit := (hfresh ((hvalid.sound.mem_order k).2 hne)).1
            omega
          · simp only [Function.update_of_ne hk]
            exact hvalid.get_eq k
      · have hfit : blob.length ≤ s.lru.budget := Nat.le_of_not_gt hbig
        obtain ⟨horder, -, hmap, -, -, hiff⟩ := hvalid.sound.makeRoom hfit
        have hgets : ∀ k, ((s.lru.put key blob).get k).1 = s.noteStore key blob k := by
          intro k
          rw [BaleLru.get_fst]
          unfold BaleLru.put noteStore
          rw [if_neg hbig, if_neg hbig]
          by_cases hk : k = key
          · subst hk
            simp only [Function.update_self]
          · simp only [Function.update_of_ne hk, hmap, ← hvalid.get_eq, BaleLru.get_fst]
        have hleft : key ∉ (s.lru.makeRoom blob.length).order ↔
            (key ∈ s.lru.order → key ∈ s.lru.victims blob.length) := by
          have hnodup := hvalid.sound.nodup
          rw [horder, List.nodup_append] at hnodup
          conv_rhs => rw [horder, List.mem_append]
          constructor
          · intro hnot hin
            exact hin.resolve_right hnot
          · intro hgone hin
            exact hnodup.2.2 key (hgone (Or.inr hin)) key hin rfl
        constructor
        · intro hv hin
          exact ⟨hfit, (hiff key hin).1 (hleft.1 ((hvalid.sound.put_iff hfit).1 hv.sound) hin)⟩
        · intro hfresh
          refine ⟨(hvalid.sound.put_iff hfit).2 (hleft.2 (fun hin => ?_)), hgets⟩
          exact (hiff key hin).2 (hfresh hin).2

/-- **The cache is valid all along a run** exactly when no put of the run is a double put. -/
theorem lru_valid_iff (budget : Nat) (acts : List OpenAct) (s : Opens)
    (hrun : Machine.run step (new budget) acts = some s) :
    Machine.Admissible step FreshStore (new budget) acts ↔
      ∀ before rest s', acts = before ++ rest →
        Machine.run step (new budget) before = some s' → s'.Valid :=
  Machine.admissible_iff_of_step (fun _ _ _ _ (_ : True) _ => trivial)
    (fun _ _ _ _ _ hvalid hstep => hvalid.step_iff hstep) trivial (valid_new budget) hrun

/-- A second put that evicts the first is harmless. -/
theorem lru_valid_evicting : ∃ s, Machine.run step (new 2)
      [.lookup "a", .lookup "a", .store "a" [0], .store "a" [0, 0]] = some s ∧ s.Valid := by
  have hrun := Eq.refl (Machine.run step (new 2)
    [.lookup "a", .lookup "a", .store "a" [0], .store "a" [0, 0]])
  refine ⟨_, hrun, (lru_valid_iff 2 _ _ hrun).1 ?_ _ [] _ (List.append_nil _).symm hrun⟩
  refine Machine.admissible_cons rfl trivial (Machine.admissible_cons rfl trivial ?_)
  refine Machine.admissible_cons rfl (fun h => ?_) (Machine.admissible_cons rfl (fun _ => ?_) trivial)
  · exact absurd h (by decide)
  · decide

/-- Two opens of one file both miss it and both put it. -/
theorem double_put_leaks : ∃ s, Machine.run step (new baleLruBudgetBytes)
      [.lookup "a", .lookup "a", .store "a" [0], .store "a" [0]] = some s ∧
    s.lru.order = ["a", "a"] ∧ s.lru.bytesUsed = 2 ∧ ¬ s.Valid :=
  ⟨_, rfl, rfl, rfl, fun h => absurd h.sound.nodup (by decide)⟩

end Opens

end BaleForGit
