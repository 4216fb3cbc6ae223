import Mathlib.Logic.Function.Basic

/-!
# Write-back caches

A cache keeps copies of some pages of a backing store in frames.  A write goes
to the frame only and marks it dirty; the store gets the page back when the
frame is taken for another page.

`Coherent` ties a cache to the contents that its users see: a resident page
is in its frames, a page that is not resident is in the store, and the store
also has the pages of clean frames.  A page may be in several frames as long as
all of them are clean.  The three operations keep it.  `evict` and `fill` keep
the contents, and `modify` changes one page.

`Represents` is a coherent cache with at most one frame for a page.
-/

namespace Nachos.Lib

open Function

/-- A cache with frames `φ`, pages `κ` and page contents `δ`. -/
structure Cache (φ κ δ : Type*) where
  /-- The page that a frame holds. -/
  tag : φ → Option κ
  dirty : φ → Bool
  data : φ → δ
  store : κ → δ

namespace Cache

variable {φ κ δ : Type*} {c : Cache φ κ δ}

/-- The cache and the store hold the contents `view`. -/
structure Represents (c : Cache φ κ δ) (view : κ → δ) : Prop where
  tag_inj : ∀ f g k, c.tag f = some k → c.tag g = some k → f = g
  resident : ∀ f k, c.tag f = some k → c.data f = view k
  clean : ∀ f k, c.tag f = some k → c.dirty f = false → c.store k = view k
  absent : ∀ k, (∀ f, c.tag f ≠ some k) → c.store k = view k

/-- The cache and the store hold the contents `view`, and a page in several
frames is clean in all of them. -/
structure Coherent (c : Cache φ κ δ) (view : κ → δ) : Prop where
  shared : ∀ f g k, c.tag f = some k → c.tag g = some k → f ≠ g → c.dirty f = false
  resident : ∀ f k, c.tag f = some k → c.data f = view k
  clean : ∀ f k, c.tag f = some k → c.dirty f = false → c.store k = view k
  absent : ∀ k, (∀ f, c.tag f ≠ some k) → c.store k = view k

theorem Represents.coherent {view : κ → δ} (h : c.Represents view) :
    c.Coherent view :=
  ⟨fun f g k hf hg hne => absurd (h.tag_inj f g k hf hg) hne, h.resident, h.clean, h.absent⟩

/-- A coherent cache with one frame for a page. -/
theorem Coherent.represents {view : κ → δ} (h : c.Coherent view)
    (hinj : ∀ f g k, c.tag f = some k → c.tag g = some k → f = g) : c.Represents view :=
  ⟨hinj, h.resident, h.clean, h.absent⟩

/-- An empty cache holds the contents of its store. -/
theorem coherent_empty (h : ∀ f, c.tag f = none) : c.Coherent c.store := by
  have hnone : ∀ f k, c.tag f ≠ some k := by
    intro f k hf
    rw [h f] at hf
    cases hf
  exact ⟨fun f _ k hf => absurd hf (hnone f k), fun f k hf => absurd hf (hnone f k),
    fun _ _ _ _ => rfl, fun _ _ => rfl⟩

theorem represents_empty (h : ∀ f, c.tag f = none) : c.Represents c.store := by
  refine (coherent_empty h).represents fun f g k hf => ?_
  rw [h f] at hf
  cases hf

variable [DecidableEq φ] [DecidableEq κ]

/-- Free a frame.  A dirty page goes back to the store. -/
def evict (c : Cache φ κ δ) (f : φ) : Cache φ κ δ :=
  { c with
    tag := update c.tag f none
    store :=
      match c.tag f with
      | some k => if c.dirty f then update c.store k (c.data f) else c.store
      | none => c.store }

/-- Read a page into a frame. -/
def fill (c : Cache φ κ δ) (f : φ) (k : κ) : Cache φ κ δ :=
  { c with
    tag := update c.tag f (some k)
    dirty := update c.dirty f false
    data := update c.data f (c.store k) }

/-- Change the page in a frame. -/
def modify (c : Cache φ κ δ) (f : φ) (v : δ) : Cache φ κ δ :=
  { c with
    dirty := update c.dirty f true
    data := update c.data f v }

variable {c : Cache φ κ δ} {view : κ → δ} {f : φ} {k : κ}

theorem evict_tag_eq_some {g : φ} : (c.evict f).tag g = some k ↔ g ≠ f ∧ c.tag g = some k := by
  by_cases hg : g = f
  · subst hg
    simp [evict]
  · simp [evict, hg]

omit [DecidableEq κ] in
theorem fill_tag_eq_some {g : φ} {l : κ} (hg : (c.fill f k).tag g = some l) :
    g = f ∧ l = k ∨ g ≠ f ∧ c.tag g = some l := by
  by_cases hgf : g = f
  · subst hgf
    refine Or.inl ⟨rfl, ?_⟩
    simpa [fill, eq_comm] using hg
  · refine Or.inr ⟨hgf, ?_⟩
    simpa [fill, update_of_ne hgf] using hg

/-- After the eviction of a page the store has it. -/
theorem evict_store (h : c.Coherent view) (k : κ)
    (hk : c.store k = view k ∨ c.tag f = some k) : (c.evict f).store k = view k := by
  cases htag : c.tag f with
  | none =>
    rw [htag] at hk
    simpa [evict, htag] using hk
  | some k' =>
    cases hdirty : c.dirty f with
    | false =>
      have hstore : c.store k = view k := by
        rcases hk with hk | hk
        · exact hk
        · exact h.clean f k hk hdirty
      simpa [evict, htag, hdirty] using hstore
    | true =>
      by_cases hkk : k = k'
      · subst hkk
        simpa [evict, htag, hdirty] using h.resident f k htag
      · have hstore : c.store k = view k := by
          rcases hk with hk | hk
          · exact hk
          · rw [htag] at hk
            exact absurd (Option.some.inj hk).symm hkk
        simpa [evict, htag, hdirty, update_of_ne hkk] using hstore

/-- An eviction keeps the contents. -/
theorem Coherent.evict (h : c.Coherent view) (f : φ) : (c.evict f).Coherent view where
  shared g g' k hg hg' hne :=
    h.shared g g' k (evict_tag_eq_some.mp hg).2 (evict_tag_eq_some.mp hg').2 hne
  resident g k hg := h.resident g k (evict_tag_eq_some.mp hg).2
  clean g k hg hclean :=
    evict_store h k (Or.inl (h.clean g k (evict_tag_eq_some.mp hg).2 hclean))
  absent k hk := by
    refine evict_store h k ?_
    by_cases hf : c.tag f = some k
    · exact Or.inr hf
    · refine Or.inl (h.absent k fun g hg => ?_)
      have hgf : g ≠ f := fun he => hf (he ▸ hg)
      exact hk g (evict_tag_eq_some.mpr ⟨hgf, hg⟩)

omit [DecidableEq φ] [DecidableEq κ] in
/-- The store has every page that no frame has changed. -/
theorem Coherent.store_eq (h : c.Coherent view)
    (hk : ∀ g, c.tag g = some k → c.dirty g = false) : c.store k = view k := by
  by_cases hres : ∃ g, c.tag g = some k
  · obtain ⟨g, hg⟩ := hres
    exact h.clean g k hg (hk g hg)
  · exact h.absent k fun g hg => hres ⟨g, hg⟩

omit [DecidableEq κ] in
/-- Reading a page that no frame has changed into a free frame keeps the
contents. -/
theorem Coherent.fill (h : c.Coherent view) (hfree : c.tag f = none)
    (hk : ∀ g, c.tag g = some k → c.dirty g = false) : (c.fill f k).Coherent view := by
  constructor
  · intro g g' l hg hg' hne
    rcases fill_tag_eq_some hg with ⟨rfl, rfl⟩ | ⟨hgf, hold⟩
    · simp [Cache.fill]
    · have hdirty : c.dirty g = false := by
        rcases fill_tag_eq_some hg' with ⟨_, rfl⟩ | ⟨_, hold'⟩
        · exact hk g hold
        · exact h.shared g g' l hold hold' hne
      simpa [Cache.fill, update_of_ne hgf] using hdirty
  · intro g l hg
    rcases fill_tag_eq_some hg with ⟨rfl, rfl⟩ | ⟨hgf, hold⟩
    · simpa [Cache.fill] using h.store_eq hk
    · simpa [Cache.fill, update_of_ne hgf] using h.resident g l hold
  · intro g l hg hclean
    rcases fill_tag_eq_some hg with ⟨rfl, rfl⟩ | ⟨hgf, hold⟩
    · exact h.store_eq hk
    · exact h.clean g l hold (by simpa [Cache.fill, update_of_ne hgf] using hclean)
  · intro l hl
    refine h.absent l fun g hg => ?_
    have hgf : g ≠ f := by
      rintro rfl
      rw [hfree] at hg
      cases hg
    exact hl g (by simpa [Cache.fill, update_of_ne hgf] using hg)

/-- A change of the only frame of a page changes the contents of the page. -/
theorem Coherent.modify (h : c.Coherent view) (hf : c.tag f = some k)
    (honly : ∀ g, c.tag g = some k → g = f) (v : δ) :
    (c.modify f v).Coherent (update view k v) where
  shared g g' l hg hg' hne := by
    have hgf : g ≠ f := by
      rintro rfl
      have hlk : l = k := Option.some.inj (hg.symm.trans hf)
      exact hne (honly g' (hlk ▸ hg')).symm
    simpa [Cache.modify, update_of_ne hgf] using h.shared g g' l hg hg' hne
  resident g l hg := by
    by_cases hgf : g = f
    · subst hgf
      have hlk : l = k := Option.some.inj (hg.symm.trans hf)
      simp [Cache.modify, hlk]
    · have hlk : l ≠ k := fun he => hgf (honly g (he ▸ hg))
      simpa [Cache.modify, update_of_ne hgf, update_of_ne hlk] using h.resident g l hg
  clean g l hg hclean := by
    have hgf : g ≠ f := by
      rintro rfl
      simp [Cache.modify] at hclean
    have hlk : l ≠ k := fun he => hgf (honly g (he ▸ hg))
    rw [update_of_ne hlk]
    exact h.clean g l hg (by simpa [Cache.modify, update_of_ne hgf] using hclean)
  absent l hl := by
    have hlk : l ≠ k := fun he => hl f (he ▸ hf)
    rw [update_of_ne hlk]
    exact h.absent l hl

/-! ## One frame for a page -/

theorem Represents.evict (h : c.Represents view) (f : φ) : (c.evict f).Represents view :=
  (h.coherent.evict f).represents fun g g' k hg hg' =>
    h.tag_inj g g' k (evict_tag_eq_some.mp hg).2 (evict_tag_eq_some.mp hg').2

omit [DecidableEq κ] in
/-- Reading an absent page into a free frame. -/
theorem Represents.fill (h : c.Represents view) (hfree : c.tag f = none)
    (hk : ∀ g, c.tag g ≠ some k) : (c.fill f k).Represents view := by
  refine (h.coherent.fill hfree fun g hg => absurd hg (hk g)).represents ?_
  intro g g' l hg hg'
  rcases fill_tag_eq_some hg with ⟨rfl, rfl⟩ | ⟨_, hold⟩
  · rcases fill_tag_eq_some hg' with ⟨rfl, _⟩ | ⟨_, hold'⟩
    · rfl
    · exact absurd hold' (hk g')
  · rcases fill_tag_eq_some hg' with ⟨_, rfl⟩ | ⟨_, hold'⟩
    · exact absurd hold (hk g)
    · exact h.tag_inj g g' l hold hold'

theorem Represents.modify (h : c.Represents view) (hf : c.tag f = some k) (v : δ) :
    (c.modify f v).Represents (update view k v) :=
  (h.coherent.modify hf (fun g hg => h.tag_inj g f k hg hf) v).represents h.tag_inj

end Cache

end Nachos.Lib
