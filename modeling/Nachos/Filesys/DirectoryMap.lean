import Nachos.Filesys.Reboot
import Nachos.Lib.Run
import Nachos.Lib.SlotTable

/-!
# A directory is a bounded map

The calls of `Add`, `Remove` and `Find` on one directory in memory, in any order and
with any names.  The names are strings in the memory of the process, which changes
between the calls; only the names of the entries in use stay as they are.

`history` has the calls of `Add` and `Remove` that returned `TRUE`, the latest first,
and `binding` reads off it which sector a name has.  `IsMap` says what the three
functions do in terms of `binding`.  The table is a table of slots (`slots`), and it
holds the map `binding history` (`MapInv`).
-/

namespace Nachos.Filesys

open Function Lib Machine

namespace Directory

/-! ## Runs -/

/-- A call that has changed the directory. -/
inductive Change where
  | added (name : String) (sector : BitVec 32)
  | removed (name : String)

/-- The sector of the latest `Add` of a name that has not been removed since. -/
def binding : List Change → String → Option (BitVec 32)
  | [] => fun _ => none
  | .added name sector :: history => update (binding history) name (some sector)
  | .removed name :: history => update (binding history) name none

/-- A directory, the strings in memory, and the history. -/
structure Session where
  dir : Directory
  mem : Strings
  history : List Change

inductive SessionCall where
  | find (key : BitVec 32)
  | add (key newSector : BitVec 32)
  | remove (key : BitVec 32)
  /-- The memory changes. -/
  | write (mem : Strings)

namespace Session

/-- A new directory. -/
def new (size : Nat) (junk : Bytes) (mem : Strings) : Session where
  dir := .new size junk
  mem := mem
  history := []

/-- One call.  The name has to be a string. -/
def step (s : Session) : SessionCall → Option Session
  | .find key => (s.dir.find s.mem key).map fun _ => s
  | .add key newSector => do
      let name ← s.mem key
      let added ← s.dir.add s.mem key newSector
      some (added.elim s fun dir =>
        { s with dir := dir, history := .added name newSector :: s.history })
  | .remove key => do
      let name ← s.mem key
      let removed ← s.dir.remove s.mem key
      some (removed.elim s fun dir =>
        { s with dir := dir, history := .removed name :: s.history })
  | .write mem => some { s with mem := mem }

/-- The names that are stored are not modified. -/
def KeepsNames (s : Session) : SessionCall → Prop
  | .write mem => SameNames s.dir.table s.dir.tableSize s.mem mem
  | _ => True

end Session

/-- The entry `j` is the same in both tables. -/
def SameEntry (table table' : Bytes) (j : Nat) : Prop :=
  inUse table' j = inUse table j ∧ sector table' j = sector table j ∧
    name table' j = name table j

/-- What the next call does after a run, for a directory of `size` entries. -/
structure IsMap (size : Nat) (s : Session) : Prop where
  /-- No two entries in use have the same name. -/
  names : ∀ i < size, ∀ j < size, inUse s.dir.table i = true → inUse s.dir.table j = true →
    s.mem (name s.dir.table i) = s.mem (name s.dir.table j) → i = j
  find : ∀ key name, s.mem key = some name →
    s.dir.find s.mem key = some ((binding s.history name).elim (-1) BitVec.toInt)
  add_fails : ∀ key name newSector, s.mem key = some name →
    (s.dir.add s.mem key newSector = some none ↔
      binding s.history name ≠ none ∨ ∀ i < size, inUse s.dir.table i = true)
  /-- Otherwise a free entry is taken, and the others are left alone. -/
  add_succeeds : ∀ key name newSector, s.mem key = some name → binding s.history name = none →
    (∃ i < size, inUse s.dir.table i = false) →
    ∃ dir' i, s.dir.add s.mem key newSector = some (some dir') ∧ dir'.tableSize = size ∧
      i < size ∧ inUse s.dir.table i = false ∧ inUse dir'.table i = true ∧
      sector dir'.table i = newSector ∧ Directory.name dir'.table i = key ∧
      ∀ j ≠ i, SameEntry s.dir.table dir'.table j
  remove_fails : ∀ key name, s.mem key = some name →
    (s.dir.remove s.mem key = some none ↔ binding s.history name = none)
  /-- Otherwise the entry of the name is freed, and the others are left alone. -/
  remove_succeeds : ∀ key name, s.mem key = some name → binding s.history name ≠ none →
    ∃ dir' i, s.dir.remove s.mem key = some (some dir') ∧ dir'.tableSize = size ∧
      i < size ∧ inUse s.dir.table i = true ∧ s.mem (Directory.name s.dir.table i) = some name ∧
      inUse dir'.table i = false ∧ ∀ j ≠ i, SameEntry s.dir.table dir'.table j

/-! ## The table as slots -/

variable {table : Bytes} {mem mem' : Strings} {i n : Nat} {key : BitVec 32} {s : String}

/-- The entries in use, with their names. -/
def slots (table : Bytes) (mem : Strings) (i : Nat) : Option (String × BitVec 32) :=
  if inUse table i then (mem (name table i)).map fun s => (s, sector table i) else none

theorem slots_of_inUse (huse : inUse table i = true) (hname : mem (name table i) = some s) :
    slots table mem i = some (s, sector table i) := by
  rw [slots, if_pos huse, hname, Option.map_some]

theorem slots_of_free (hfree : inUse table i = false) : slots table mem i = none := by
  rw [slots, hfree, if_neg Bool.false_ne_true]

theorem slots_eq_some {v : BitVec 32} (h : slots table mem i = some (s, v)) :
    inUse table i = true ∧ mem (name table i) = some s ∧ sector table i = v := by
  rw [slots] at h
  split at h
  · rename_i huse
    obtain ⟨s', hname, heq⟩ := Option.map_eq_some_iff.mp h
    cases heq
    exact ⟨huse, hname, rfl⟩
  · cases h

theorem slots_congr {table' : Bytes} {j : Nat} (h : SameEntry table table' j) (mem : Strings) :
    slots table' mem j = slots table mem j := by
  rw [slots, slots, h.1, h.2.1, h.2.2]

theorem slots_setEntry (hkey : mem key = some s) (i : Nat) (newSector : BitVec 32) :
    slots (setEntry table i key newSector) mem =
      update (slots table mem) i (some (s, newSector)) := by
  funext j
  by_cases hj : j = i
  · subst hj
    obtain ⟨huse, hsector, hname⟩ := setEntry_self table j key newSector
    rw [update_self, slots_of_inUse huse (hname ▸ hkey), hsector]
  · rw [update_of_ne hj]
    exact slots_congr (setEntry_of_ne table key newSector hj) mem

/-- The assignment of `Remove`. -/
theorem sameEntry_free {j : Nat} (hj : j ≠ i) :
    SameEntry table (update table (EntrySize * i) 0) j := by
  have hsame : ∀ x, EntrySize * j ≤ x → x < EntrySize * j + 16 →
      update table (EntrySize * i) (0 : Byte) x = table x := by
    intro x hlo hhi
    apply update_of_ne
    simp only [EntrySize] at *
    omega
  refine ⟨?_, Bytes.word_congr fun k hk => hsame _ (by omega) (by omega),
    Bytes.word_congr fun k hk => hsame _ (by omega) (by omega)⟩
  rw [inUse, inUse, hsame _ le_rfl (by omega)]

theorem inUse_free (table : Bytes) (i : Nat) :
    inUse (update table (EntrySize * i) 0) i = false := by
  rw [inUse, update_self]
  rfl

theorem slots_free (table : Bytes) (mem : Strings) (i : Nat) :
    slots (update table (EntrySize * i) 0) mem = update (slots table mem) i none := by
  funext j
  by_cases hj : j = i
  · subst hj
    rw [update_self, slots_of_free (inUse_free table j)]
  · rw [update_of_ne hj]
    exact slots_congr (sameEntry_free hj) mem

/-! ## `FindIndex` -/

/-- The loop of `FindIndex` looks for the first slot with the name. -/
theorem findIndexIn_eq (hkey : mem key = some s) {is : List Nat}
    (hnamed : ∀ i ∈ is, inUse table i = true → mem (name table i) ≠ none) :
    findIndexIn table mem key is =
      some ((is.find? fun i => (slots table mem i).map Prod.fst == some s).elim (-1) Nat.cast) := by
  induction is with
  | nil => rfl
  | cons i is ih =>
    have hrest := ih fun j hj => hnamed j (List.mem_cons_of_mem i hj)
    rw [findIndexIn, List.find?_cons]
    cases huse : inUse table i with
    | false =>
      rw [if_neg Bool.false_ne_true, slots_of_free huse, hrest]
      rfl
    | true =>
      obtain ⟨s', hs'⟩ := Option.ne_none_iff_exists'.mp (hnamed i List.mem_cons_self huse)
      have hcmp : strcmp mem (name table i) key = some (s' == s) := by
        rw [strcmp, hs', hkey]
        rfl
      rw [if_pos rfl, hcmp, slots_of_inUse huse hs', hrest]
      cases hsame : s' == s with
      | false => simp [hsame]
      | true => simp [hsame]

/-! ## The invariant -/

/-- The table holds the map that the history says. -/
structure MapInv (size : Nat) (s : Session) : Prop where
  tableSize : s.dir.tableSize = size
  named : ∀ i < size, inUse s.dir.table i = true → s.mem (name s.dir.table i) ≠ none
  map : HoldsMap size (slots s.dir.table s.mem) (binding s.history)

namespace MapInv

variable {size : Nat} {ss ss' : Session} {v : BitVec 32}

theorem findIndex_eq (h : MapInv size ss) (hkey : ss.mem key = some s) :
    ss.dir.findIndex ss.mem key = some (((List.range size).find? fun i =>
      (slots ss.dir.table ss.mem i).map Prod.fst == some s).elim (-1) Nat.cast) := by
  rw [findIndex, h.tableSize]
  exact findIndexIn_eq hkey fun i hi => h.named i (List.mem_range.mp hi)

/-- A name without a sector is not found. -/
theorem findIndex_of_none (h : MapInv size ss) (hkey : ss.mem key = some s)
    (hnone : binding ss.history s = none) : ss.dir.findIndex ss.mem key = some (-1) := by
  have hfind : ((List.range size).find? fun i =>
      (slots ss.dir.table ss.mem i).map Prod.fst == some s) = none := by
    rw [List.find?_eq_none]
    intro i hi hmatch
    obtain ⟨⟨s', v⟩, hslot, hs'⟩ := Option.map_eq_some_iff.mp (eq_of_beq hmatch)
    cases hs'
    exact h.map.ne_of_unbound hnone (List.mem_range.mp hi) v hslot
  rw [h.findIndex_eq hkey, hfind]
  rfl

/-- A name with a sector is found in the slot that has both. -/
theorem findIndex_of_some (h : MapInv size ss) (hkey : ss.mem key = some s)
    (hsome : binding ss.history s = some v) :
    ∃ i < size, ss.dir.findIndex ss.mem key = some (i : Int) ∧
      slots ss.dir.table ss.mem i = some (s, v) := by
  obtain ⟨j, hj, hslot⟩ := (h.map.bound s v).mp hsome
  cases hfind : (List.range size).find? fun i =>
      (slots ss.dir.table ss.mem i).map Prod.fst == some s with
  | none =>
    have hnone := List.find?_eq_none.mp hfind j (List.mem_range.mpr hj)
    rw [hslot] at hnone
    exact absurd (beq_self_eq_true (some s)) hnone
  | some i =>
    have hi := List.mem_range.mp (List.mem_of_find?_eq_some hfind)
    have hmatch := List.find?_some hfind
    obtain ⟨⟨s', v'⟩, hslot', hs'⟩ := Option.map_eq_some_iff.mp (eq_of_beq hmatch)
    cases hs'
    have hij := h.map.distinct i hi j hj _ _ _ hslot' hslot
    subst hij
    refine ⟨i, hi, ?_, hslot⟩
    rw [h.findIndex_eq hkey, hfind]
    rfl

/-! ## The functions -/

theorem find_eq (h : MapInv size ss) (hkey : ss.mem key = some s) :
    ss.dir.find ss.mem key = some ((binding ss.history s).elim (-1) BitVec.toInt) := by
  rw [find]
  cases hbinding : binding ss.history s with
  | none =>
    rw [h.findIndex_of_none hkey hbinding]
    rfl
  | some v =>
    obtain ⟨i, _, hindex, hslot⟩ := h.findIndex_of_some hkey hbinding
    obtain ⟨_, _, hsector⟩ := slots_eq_some hslot
    rw [hindex, Option.bind_eq_bind, Option.bind_some, if_pos (by omega), Int.toNat_natCast,
      hsector]
    rfl

/-- The name is there already. -/
theorem add_of_some (h : MapInv size ss) (hkey : ss.mem key = some s)
    (hsome : binding ss.history s = some v) (newSector : BitVec 32) :
    ss.dir.add ss.mem key newSector = some none := by
  obtain ⟨i, _, hindex, _⟩ := h.findIndex_of_some hkey hsome
  rw [add, hindex, Option.bind_eq_bind, Option.bind_some, if_pos (by omega)]

/-- A new name, and the first free entry if there is one. -/
theorem add_of_none (h : MapInv size ss) (hkey : ss.mem key = some s)
    (hnone : binding ss.history s = none) (newSector : BitVec 32) :
    ss.dir.add ss.mem key newSector =
      some (((List.range size).find? fun i => !inUse ss.dir.table i).map fun i =>
        { ss.dir with table := setEntry ss.dir.table i key newSector }) := by
  obtain rfl := h.tableSize
  rw [add, h.findIndex_of_none hkey hnone, Option.bind_eq_bind, Option.bind_some,
    if_neg (fun hne => hne rfl)]
  cases (List.range ss.dir.tableSize).find? fun i => !inUse ss.dir.table i with
  | none => rfl
  | some i => rfl

theorem find_free_eq_none : ((List.range size).find? fun i => !inUse table i) = none ↔
    ∀ i < size, inUse table i = true := by
  simp

theorem find_free_eq_some (hfind : ((List.range size).find? fun i => !inUse table i) = some i) :
    i < size ∧ inUse table i = false := by
  refine ⟨List.mem_range.mp (List.mem_of_find?_eq_some hfind), ?_⟩
  simpa using List.find?_some hfind

theorem add_eq_none (h : MapInv size ss) (hkey : ss.mem key = some s) (newSector : BitVec 32) :
    ss.dir.add ss.mem key newSector = some none ↔
      binding ss.history s ≠ none ∨ ∀ i < size, inUse ss.dir.table i = true := by
  cases hbinding : binding ss.history s with
  | none =>
    rw [h.add_of_none hkey hbinding, Option.some.injEq, Option.map_eq_none_iff, find_free_eq_none]
    simp
  | some v =>
    rw [h.add_of_some hkey hbinding]
    simp

theorem remove_of_none (h : MapInv size ss) (hkey : ss.mem key = some s)
    (hnone : binding ss.history s = none) : ss.dir.remove ss.mem key = some none := by
  rw [remove, h.findIndex_of_none hkey hnone]
  rfl

theorem remove_of_some (h : MapInv size ss) (hkey : ss.mem key = some s)
    (hsome : binding ss.history s = some v) :
    ∃ i < size, slots ss.dir.table ss.mem i = some (s, v) ∧ ss.dir.remove ss.mem key =
      some (some { ss.dir with table := update ss.dir.table (EntrySize * i) 0 }) := by
  obtain ⟨i, hi, hindex, hslot⟩ := h.findIndex_of_some hkey hsome
  refine ⟨i, hi, hslot, ?_⟩
  rw [remove, hindex, Option.bind_eq_bind, Option.bind_some, if_neg (by omega), Int.toNat_natCast]

/-! ## The steps -/

theorem new (size : Nat) (junk : Bytes) (mem : Strings) : MapInv size (.new size junk mem) where
  tableSize := rfl
  named i hi huse := by
    have hfree : inUse (Directory.new size junk).table i = false := inUse_new junk hi
    exact absurd (hfree.symm.trans huse) Bool.false_ne_true
  map := HoldsMap.empty fun i hi => slots_of_free (inUse_new junk hi)

/-- A new entry. -/
theorem setEntry (h : MapInv size ss) (hkey : ss.mem key = some s)
    (hnone : binding ss.history s = none) (hi : i < size) (hfree : inUse ss.dir.table i = false)
    (newSector : BitVec 32) :
    MapInv size ⟨{ ss.dir with table := Directory.setEntry ss.dir.table i key newSector }, ss.mem,
      .added s newSector :: ss.history⟩ where
  tableSize := h.tableSize
  named j hj huse := by
    change inUse (Directory.setEntry _ _ _ _) j = true at huse
    change ss.mem (name (Directory.setEntry _ _ _ _) j) ≠ none
    by_cases hji : j = i
    · subst hji
      rw [(setEntry_self ss.dir.table j key newSector).2.2, hkey]
      exact Option.some_ne_none s
    · obtain ⟨hsame, _, hname⟩ := setEntry_of_ne ss.dir.table key newSector hji
      rw [hname]
      exact h.named j hj (hsame ▸ huse)
  map := by
    change HoldsMap size (slots (Directory.setEntry _ _ _ _) _) _
    rw [slots_setEntry hkey]
    exact h.map.insert hnone hi (slots_of_free hfree) newSector

/-- The entry of a name is freed. -/
theorem free (h : MapInv size ss) (hi : i < size)
    (hslot : slots ss.dir.table ss.mem i = some (s, v)) :
    MapInv size ⟨{ ss.dir with table := update ss.dir.table (EntrySize * i) 0 }, ss.mem,
      .removed s :: ss.history⟩ where
  tableSize := h.tableSize
  named j hj huse := by
    change inUse (update _ _ _) j = true at huse
    change ss.mem (name (update _ _ _) j) ≠ none
    by_cases hji : j = i
    · subst hji
      rw [inUse_free] at huse
      cases huse
    · have hentry : SameEntry ss.dir.table (update ss.dir.table (EntrySize * i) 0) j :=
        sameEntry_free hji
      obtain ⟨hsame, _, hname⟩ := hentry
      rw [hname]
      exact h.named j hj (hsame ▸ huse)
  map := by
    change HoldsMap size (slots (update _ _ _) _) _
    rw [slots_free]
    exact h.map.erase hi hslot

/-- The memory changes and the names stay. -/
theorem write (h : MapInv size ss) (hsame : SameNames ss.dir.table ss.dir.tableSize ss.mem mem') :
    MapInv size { ss with mem := mem' } where
  tableSize := h.tableSize
  named i hi huse := by
    change mem' _ ≠ none
    rw [hsame i (h.tableSize ▸ hi) huse]
    exact h.named i hi huse
  map := h.map.congr fun i hi => by
    change slots ss.dir.table mem' i = slots ss.dir.table ss.mem i
    cases huse : inUse ss.dir.table i with
    | false => rw [slots_of_free huse, slots_of_free huse]
    | true => rw [slots, slots, hsame i (h.tableSize ▸ hi) huse]

theorem step {a : SessionCall} (h : MapInv size ss) (hok : ss.KeepsNames a)
    (hstep : ss.step a = some ss') : MapInv size ss' := by
  cases a with
  | find key =>
    obtain ⟨_, _, hss'⟩ := Option.map_eq_some_iff.mp hstep
    exact hss' ▸ h
  | add key newSector =>
    obtain ⟨s, hkey, hstep⟩ := Option.bind_eq_some_iff.mp hstep
    obtain ⟨added, hadd, hstep⟩ := Option.bind_eq_some_iff.mp hstep
    cases hstep
    cases hbinding : binding ss.history s with
    | some v =>
      rw [h.add_of_some hkey hbinding] at hadd
      cases hadd
      exact h
    | none =>
      rw [h.add_of_none hkey hbinding] at hadd
      cases hfind : (List.range size).find? fun i => !inUse ss.dir.table i with
      | none =>
        rw [hfind] at hadd
        cases hadd
        exact h
      | some i =>
        rw [hfind] at hadd
        cases hadd
        obtain ⟨hi, hfree⟩ := find_free_eq_some hfind
        exact h.setEntry hkey hbinding hi hfree newSector
  | remove key =>
    obtain ⟨s, hkey, hstep⟩ := Option.bind_eq_some_iff.mp hstep
    obtain ⟨removed, hremove, hstep⟩ := Option.bind_eq_some_iff.mp hstep
    cases hstep
    cases hbinding : binding ss.history s with
    | none =>
      rw [h.remove_of_none hkey hbinding] at hremove
      cases hremove
      exact h
    | some v =>
      obtain ⟨i, hi, hslot, heq⟩ := h.remove_of_some hkey hbinding
      rw [heq] at hremove
      cases hremove
      exact h.free hi hslot
  | write mem =>
    cases hstep
    exact h.write hok

/-- What the next call does. -/
theorem isMap (h : MapInv size ss) : IsMap size ss where
  names i hi j hj hui huj hname := by
    obtain ⟨s, hs⟩ := Option.ne_none_iff_exists'.mp (h.named i hi hui)
    exact h.map.distinct i hi j hj s _ _ (slots_of_inUse hui hs)
      (slots_of_inUse huj (hname ▸ hs))
  find key s hkey := h.find_eq hkey
  add_fails key s newSector hkey := h.add_eq_none hkey newSector
  add_succeeds key s newSector hkey hnone hfree := by
    obtain ⟨j, hj, hfree⟩ := hfree
    cases hfind : (List.range size).find? fun i => !inUse ss.dir.table i with
    | none =>
      have huse := find_free_eq_none.mp hfind j hj
      exact absurd (hfree.symm.trans huse) Bool.false_ne_true
    | some i =>
      obtain ⟨hi, hfree⟩ := find_free_eq_some hfind
      obtain ⟨huse, hsector, hname⟩ := setEntry_self ss.dir.table i key newSector
      refine ⟨{ ss.dir with table := Directory.setEntry ss.dir.table i key newSector }, i, ?_,
        h.tableSize, hi, hfree, huse, hsector, hname,
        fun j hj => setEntry_of_ne ss.dir.table key newSector hj⟩
      rw [h.add_of_none hkey hnone, hfind]
      rfl
  remove_fails key s hkey := by
    cases hbinding : binding ss.history s with
    | none => simp [h.remove_of_none hkey hbinding]
    | some v =>
      obtain ⟨i, _, _, heq⟩ := h.remove_of_some hkey hbinding
      simp [heq]
  remove_succeeds key s hkey hsome := by
    obtain ⟨v, hv⟩ := Option.ne_none_iff_exists'.mp hsome
    obtain ⟨i, hi, hslot, heq⟩ := h.remove_of_some hkey hv
    obtain ⟨huse, hname, _⟩ := slots_eq_some hslot
    exact ⟨_, i, heq, h.tableSize, hi, huse, hname, inUse_free ss.dir.table i,
      fun j hj => sameEntry_free hj⟩

end MapInv

/-- **A directory is a bounded map**, of any size and after any calls. -/
theorem isMap_of_run (size : Nat) (junk : Bytes) (mem : Strings) {as : List SessionCall}
    {s : Session} (hok : Along Session.step Session.KeepsNames (.new size junk mem) as)
    (hrun : run Session.step (.new size junk mem) as = some s) : IsMap size s := by
  have h := run_invariant (I := MapInv size) (fun _ _ _ h hok hstep => h.step hok hstep)
    (MapInv.new size junk mem) hok hrun
  exact h.isMap

/-- The string at address 1 is `a` at first and `c` later, and `b` is at all other
addresses. -/
def twoNames (first : String) : Strings := fun key => if key = 1 then some first else some "b"

/-- `a` is added, `b` finds no room, `a` is removed, and its string is reused before
`b` is added. -/
def reusedRun : List SessionCall :=
  [.add 1 5, .add 2 6, .remove 1, .write (twoNames "c"), .add 2 7]

/-- The run on a directory of one entry. -/
theorem isMap_of_run_reused :
    ∃ s, run Session.step (.new 1 (fun _ => 0) (twoNames "a")) reusedRun = some s ∧
      s.history = [.added "b" 7, .removed "a", .added "a" 5] ∧ IsMap 1 s := by
  have hok : Along Session.step Session.KeepsNames (.new 1 (fun _ => 0) (twoNames "a"))
      reusedRun := by
    refine ⟨trivial, trivial, trivial, ?_, trivial, trivial⟩
    intro i hi huse
    obtain rfl : i = 0 := by
      change i < 1 at hi
      omega
    cases huse
  exact ⟨_, rfl, rfl, isMap_of_run 1 (fun _ => 0) (twoNames "a") hok rfl⟩

end Directory

end Nachos.Filesys
