import Mathlib

/-!
# Dyadic blocks of naturals

A block of order `o` is a run of `2 ^ o` consecutive numbers.  Aligned blocks
form binary trees: two of them are nested or disjoint, and a block together
with its buddy makes up its parent.  The main result is that a set is cut into
aligned blocks in at most one way once no two buddies are both present.
-/

namespace KernelM5040.Dyadic

open Nat Set

/-! ## Flipping and clearing one bit -/

theorem xor_two_pow_mul (order quotient : ℕ) :
    2 ^ order * quotient ^^^ 2 ^ order = 2 ^ order * (quotient ^^^ 1) := by
  have hdistrib := @shiftLeft_xor_distrib order quotient 1
  rw [shiftLeft_eq, shiftLeft_eq, shiftLeft_eq, one_mul] at hdistrib
  rw [mul_comm, ← hdistrib, mul_comm]

theorem ldiff_two_pow_mul (order quotient : ℕ) :
    ldiff (2 ^ order * quotient) (2 ^ order) = 2 ^ (order + 1) * (quotient / 2) := by
  apply eq_of_testBit_eq
  intro index
  rw [testBit_ldiff, testBit_two_pow_mul, testBit_two_pow_mul, testBit_two_pow, testBit_div_two]
  rcases lt_trichotomy index order with hlt | rfl | hgt
  · simp [hlt.not_ge, hlt.not_gt]
  · simp
  · have hindex : index - (order + 1) + 1 = index - order := by omega
    simp [hindex, hgt, hgt.le, hgt.ne]

/-! ## The same inside a window of low bits -/

/-- A change of the low bits moves by as much as these change. -/
theorem add_window {value changed width : ℕ} (hdiv : changed / 2 ^ width = value / 2 ^ width) :
    value + changed % 2 ^ width - value % 2 ^ width = changed := by
  have hvalue := div_add_mod value (2 ^ width)
  have hchanged := div_add_mod changed (2 ^ width)
  rw [hdiv] at hchanged
  omega

theorem add_xor_window {value bit width : ℕ} (hbit : bit < width) :
    value + (value % 2 ^ width ^^^ 2 ^ bit) - value % 2 ^ width = value ^^^ 2 ^ bit := by
  have hlt := Nat.pow_lt_pow_right one_lt_two hbit
  have hwindow := @add_window value (value ^^^ 2 ^ bit) width
  rw [xor_div_two_pow, xor_mod_two_pow, mod_eq_of_lt hlt, div_eq_of_lt hlt, Nat.xor_zero] at hwindow
  exact hwindow rfl

/-- Clearing all bits below an order. -/
theorem ldiff_low (value order : ℕ) :
    ldiff value (2 ^ order - 1) = value / 2 ^ order * 2 ^ order := by
  apply eq_of_testBit_eq
  intro index
  simp only [testBit_ldiff, testBit_two_pow_sub_one, testBit_mul_two_pow, testBit_div_two_pow]
  rcases Nat.lt_or_ge index order with hlt | hge
  · simp [hlt]
  · simp [hge, Nat.not_lt.mpr hge]

theorem ldiff_window (value bit width : ℕ) :
    ldiff (value % 2 ^ width) (2 ^ bit) = ldiff value (2 ^ bit) % 2 ^ width := by
  apply eq_of_testBit_eq
  intro index
  rw [testBit_ldiff, testBit_mod_two_pow, testBit_mod_two_pow, testBit_ldiff, Bool.and_assoc]

theorem add_ldiff_window {value bit width : ℕ} (hbit : bit < width) :
    value + ldiff (value % 2 ^ width) (2 ^ bit) - value % 2 ^ width = ldiff value (2 ^ bit) := by
  rw [ldiff_window]
  refine add_window (eq_of_testBit_eq fun index => ?_)
  have hne : bit ≠ index + width := by omega
  simp [testBit_div_two_pow, testBit_ldiff, hne]

/-! ## Blocks -/

/-- The `2 ^ order` numbers from `head` on. -/
@[ext]
structure Block where
  order : ℕ
  head : ℕ
  deriving DecidableEq

namespace Block

variable (block : Block)

def pages : Set ℕ :=
  Set.Ico block.head (block.head + 2 ^ block.order)

def Aligned : Prop := 2 ^ block.order ∣ block.head

/-- The block that makes up the parent together with this one. -/
def buddy : Block :=
  ⟨block.order, block.head ^^^ 2 ^ block.order⟩

def parent : Block :=
  ⟨block.order + 1, ldiff block.head (2 ^ block.order)⟩

variable {block : Block} {page : ℕ}

theorem mem_pages : page ∈ block.pages ↔ block.head ≤ page ∧ page < block.head + 2 ^ block.order :=
  Iff.rfl

theorem head_mem_pages (block : Block) : block.head ∈ block.pages :=
  ⟨le_rfl, Nat.lt_add_of_pos_right (Nat.two_pow_pos _)⟩

@[simp]
theorem buddy_order (block : Block) : block.buddy.order = block.order := rfl

@[simp]
theorem parent_order (block : Block) : block.parent.order = block.order + 1 := rfl

@[simp]
theorem buddy_buddy (block : Block) : block.buddy.buddy = block := by
  simp [buddy]

/-- An aligned block is the left or the right half of its parent. -/
theorem left_or_right (haligned : block.Aligned) :
    (block.buddy.head = block.head + 2 ^ block.order ∧ block.parent.head = block.head) ∨
      (block.head = block.buddy.head + 2 ^ block.order ∧
        block.parent.head = block.buddy.head) := by
  obtain ⟨quotient, hquotient⟩ := haligned
  simp only [buddy, parent, hquotient, xor_two_pow_mul, ldiff_two_pow_mul]
  obtain ⟨half, rfl | rfl⟩ := even_or_odd' quotient
  · left
    rw [xor_one_of_even (even_two_mul half), Nat.mul_div_cancel_left half two_pos, mul_add,
      mul_one, ← mul_assoc, ← pow_succ]
    exact ⟨rfl, rfl⟩
  · right
    have hhalf : (2 * half + 1) / 2 = half := by omega
    rw [xor_one_of_odd (odd_two_mul_add_one half), hhalf, Nat.add_sub_cancel, mul_add,
      mul_one, ← mul_assoc, ← pow_succ]
    exact ⟨rfl, rfl⟩

theorem halves {order head : ℕ} (haligned : (⟨order + 1, head⟩ : Block).Aligned) :
    (⟨order, head⟩ : Block).Aligned ∧
      (⟨order, head⟩ : Block).buddy = ⟨order, head + 2 ^ order⟩ ∧
      (⟨order, head⟩ : Block).parent = ⟨order + 1, head⟩ := by
  obtain ⟨half, hhead⟩ := haligned
  simp only [pow_succ, mul_assoc] at hhead
  refine ⟨⟨2 * half, hhead⟩, Block.ext rfl ?_, Block.ext rfl ?_⟩
  · simp only [buddy, hhead, xor_two_pow_mul]
    rw [xor_one_of_even (even_two_mul half), mul_add, mul_one]
  · simp only [parent, hhead, ldiff_two_pow_mul]
    rw [Nat.mul_div_cancel_left half two_pos, pow_succ, mul_assoc]

section

variable (haligned : block.Aligned)
include haligned

theorem buddy_aligned : block.buddy.Aligned := by
  obtain ⟨quotient, hquotient⟩ := haligned
  refine ⟨quotient ^^^ 1, ?_⟩
  simp only [buddy, hquotient, xor_two_pow_mul]

theorem parent_aligned : block.parent.Aligned := by
  obtain ⟨quotient, hquotient⟩ := haligned
  refine ⟨quotient / 2, ?_⟩
  simp only [parent, hquotient, ldiff_two_pow_mul]

theorem pages_parent : block.parent.pages = block.pages ∪ block.buddy.pages := by
  ext page
  simp only [mem_union, mem_pages, parent_order, buddy_order, pow_succ]
  rcases left_or_right haligned with hleft | hright
  · omega
  · omega

theorem disjoint_buddy : Disjoint block.pages block.buddy.pages := by
  rw [disjoint_left]
  intro page hpage hbuddyPage
  rw [mem_pages] at hpage hbuddyPage
  rw [buddy_order] at hbuddyPage
  rcases left_or_right haligned with hleft | hright
  · omega
  · omega

theorem buddy_ne : block.buddy ≠ block := by
  intro heq
  have hdisjoint := disjoint_buddy haligned
  rw [heq, disjoint_left] at hdisjoint
  exact hdisjoint block.head_mem_pages block.head_mem_pages

end

/-- The pages of an aligned block agree above the lowest `order` bits. -/
theorem mem_pages_iff (haligned : block.Aligned) :
    page ∈ block.pages ↔ page / 2 ^ block.order = block.head / 2 ^ block.order := by
  have hpos := Nat.two_pow_pos block.order
  rw [mem_pages, Nat.div_eq_iff hpos, Nat.div_mul_cancel haligned]
  omega

theorem subset_of_mem {small large : Block} (hsmall : small.Aligned) (hlarge : large.Aligned)
    (horder : small.order ≤ large.order) (hpage : page ∈ small.pages) (hpage' : page ∈ large.pages) :
    small.pages ⊆ large.pages := by
  intro other hother
  rw [mem_pages_iff hsmall] at hpage hother
  rw [mem_pages_iff hlarge] at hpage' ⊢
  rw [← hpage', ← add_sub_of_le horder, pow_add, ← Nat.div_div_eq_div_mul,
    ← Nat.div_div_eq_div_mul, hother, hpage]

theorem eq_of_mem {left right : Block} (hleft : left.Aligned) (hright : right.Aligned)
    (horder : left.order = right.order) (hpage : page ∈ left.pages) (hpage' : page ∈ right.pages) :
    left = right := by
  have hsub := subset_of_mem hleft hright horder.le hpage hpage'
  have hsup := subset_of_mem hright hleft horder.ge hpage' hpage
  apply Block.ext horder
  exact le_antisymm (hsup right.head_mem_pages).1 (hsub left.head_mem_pages).1

theorem parent_subset {small large : Block} (hsmall : small.Aligned) (hlarge : large.Aligned)
    (horder : small.order < large.order) (hpage : page ∈ small.pages) (hpage' : page ∈ large.pages) :
    small.parent.pages ⊆ large.pages := by
  refine subset_of_mem (parent_aligned hsmall) hlarge horder ?_ hpage'
  rw [pages_parent hsmall]
  exact Or.inl hpage

end Block

open Block

/-! ## Tilings -/

/-- A set of pairwise disjoint aligned blocks. -/
structure Tiling (blocks : Set Block) : Prop where
  aligned : ∀ block ∈ blocks, block.Aligned
  disjoint : ∀ left ∈ blocks, ∀ right ∈ blocks, left ≠ right →
    Disjoint left.pages right.pages

/-- The numbers that lie in some block. -/
def covered (blocks : Set Block) : Set ℕ :=
  {page | ∃ block ∈ blocks, page ∈ block.pages}

variable {blocks : Set Block}

theorem mem_covered : page ∈ covered blocks ↔ ∃ block ∈ blocks, page ∈ block.pages := Iff.rfl

theorem pages_subset_covered (hblock : block ∈ blocks) : block.pages ⊆ covered blocks :=
  fun _ hpage => ⟨block, hblock, hpage⟩

theorem Tiling.eq_of_mem (htiling : Tiling blocks) {left right : Block} (hleft : left ∈ blocks)
    (hright : right ∈ blocks) (hpage : page ∈ left.pages) (hpage' : page ∈ right.pages) :
    left = right := by
  by_contra hne
  exact disjoint_left.mp (htiling.disjoint left hleft right hright hne) hpage hpage'

theorem covered_insert (blocks : Set Block) (block : Block) :
    covered (insert block blocks) = block.pages ∪ covered blocks := by
  ext page
  simp [mem_covered]

theorem covered_diff_singleton (htiling : Tiling blocks) (hblock : block ∈ blocks) :
    covered (blocks \ {block}) = covered blocks \ block.pages := by
  ext page
  constructor
  · rintro ⟨other, ⟨hother, hne⟩, hpage⟩
    refine ⟨⟨other, hother, hpage⟩, fun hpage' => hne ?_⟩
    exact htiling.eq_of_mem hother hblock hpage hpage'
  · rintro ⟨⟨other, hother, hpage⟩, hnot⟩
    refine ⟨other, ⟨hother, fun heq => hnot ?_⟩, hpage⟩
    rw [mem_singleton_iff] at heq
    exact heq ▸ hpage

theorem Tiling.subset {blocks fewer : Set Block} (htiling : Tiling blocks)
    (hsubset : fewer ⊆ blocks) : Tiling fewer where
  aligned := fun block hblock => htiling.aligned block (hsubset hblock)
  disjoint := fun left hleft right hright =>
    htiling.disjoint left (hsubset hleft) right (hsubset hright)

theorem Tiling.insert (htiling : Tiling blocks) (haligned : block.Aligned)
    (hfresh : Disjoint block.pages (covered blocks)) :
    Tiling (insert block blocks) where
  aligned := by
    rintro other (rfl | hother)
    · exact haligned
    · exact htiling.aligned other hother
  disjoint := by
    rintro left (rfl | hleft) right (rfl | hright) hne
    · exact absurd rfl hne
    · exact hfresh.mono_right (pages_subset_covered hright)
    · exact (hfresh.mono_right (pages_subset_covered hleft)).symm
    · exact htiling.disjoint left hleft right hright hne

/-! ## Canonical tilings -/

/-- No block below the top order is present together with its buddy. -/
def Canonical (maxOrder : ℕ) (blocks : Set Block) : Prop :=
  ∀ block ∈ blocks, block.order + 1 < maxOrder → block.buddy ∉ blocks

theorem Canonical.subset {maxOrder : ℕ} {blocks fewer : Set Block}
    (hcanonical : Canonical maxOrder blocks) (hsubset : fewer ⊆ blocks) :
    Canonical maxOrder fewer :=
  fun block hblock horder hbuddy =>
    hcanonical block (hsubset hblock) horder (hsubset hbuddy)

variable {maxOrder : ℕ}

theorem Canonical.insert (hcanonical : Canonical maxOrder blocks) (haligned : block.Aligned)
    (hbuddy : block.order + 1 < maxOrder → block.buddy ∉ blocks) :
    Canonical maxOrder (insert block blocks) := by
  rintro other (rfl | hother) horder (heq | hmem)
  · exact buddy_ne haligned heq
  · exact hbuddy horder hmem
  · refine hbuddy ?_ ?_
    · rw [← heq]
      exact horder
    · rw [← heq, buddy_buddy]
      exact hother
  · exact hcanonical other hother horder hmem

/-- In a canonical tiling no covered aligned block is cut into smaller ones:
the smallest piece inside it would have its buddy beside it. -/
theorem Canonical.order_le (hcanonical : Canonical maxOrder blocks) (htiling : Tiling blocks)
    {whole piece : Block} (hwhole : whole.Aligned) (hmax : whole.order < maxOrder)
    (hcovered : whole.pages ⊆ covered blocks) (hpiece : piece ∈ blocks)
    (hpage : page ∈ piece.pages) (hpage' : page ∈ whole.pages) : whole.order ≤ piece.order := by
  by_contra horder
  have hinside := subset_of_mem (htiling.aligned piece hpiece) hwhole (by omega) hpage hpage'
  -- a piece of least order inside `whole`
  obtain ⟨least, ⟨hleast, hleastIn⟩, hminimal⟩ :=
    WellFounded.has_min (measure Block.order).wf
      {block | block ∈ blocks ∧ block.pages ⊆ whole.pages} ⟨piece, hpiece, hinside⟩
  have hle : least.order ≤ piece.order :=
    not_lt.mp fun hlt => hminimal piece ⟨hpiece, hinside⟩ hlt
  have haligned := htiling.aligned least hleast
  have hbuddyIn : least.buddy.pages ⊆ whole.pages := by
    have hparent := parent_subset haligned hwhole (by omega) least.head_mem_pages
      (hleastIn least.head_mem_pages)
    rw [pages_parent haligned] at hparent
    exact subset_union_right.trans hparent
  -- the block that covers the buddy's head
  have hhead := least.buddy.head_mem_pages
  obtain ⟨other, hother, hmem⟩ := hcovered (hbuddyIn hhead)
  have hotherAligned := htiling.aligned other hother
  have hbuddyAligned := buddy_aligned haligned
  rcases lt_trichotomy other.order least.order with hlt | heq | hgt
  · have hsub := subset_of_mem hotherAligned hbuddyAligned hlt.le hmem hhead
    exact hminimal other ⟨hother, hsub.trans hbuddyIn⟩ hlt
  · have hsame := eq_of_mem hotherAligned hbuddyAligned heq hmem hhead
    exact hcanonical least hleast (by omega) (hsame ▸ hother)
  -- a larger block there would swallow `least` too
  have hsub := parent_subset hbuddyAligned hotherAligned hgt hhead hmem
  rw [pages_parent hbuddyAligned, buddy_buddy] at hsub
  have hsame := htiling.eq_of_mem hleast hother least.head_mem_pages
    (hsub (Or.inr least.head_mem_pages))
  exact hgt.ne (congrArg Block.order hsame)

section

variable {left right : Set Block} (hleft : Tiling left) (hright : Tiling right)
  (hcleft : Canonical maxOrder left) (hcright : Canonical maxOrder right)
  (hmaxLeft : ∀ block ∈ left, block.order < maxOrder)
  (hmaxRight : ∀ block ∈ right, block.order < maxOrder) (hcovered : covered left = covered right)
include hleft hright hcleft hcright hmaxLeft hmaxRight hcovered

theorem Canonical.subset_of_covered_eq : left ⊆ right := by
  intro block hblock
  have haligned := hleft.aligned block hblock
  have hhead := block.head_mem_pages
  have hall := pages_subset_covered hblock
  rw [hcovered] at hall
  obtain ⟨other, hother, hpage⟩ := hall hhead
  have hotherAligned := hright.aligned other hother
  have hle := hcleft.order_le hleft hotherAligned (hmaxRight other hother)
    (hcovered ▸ pages_subset_covered hother) hblock hhead hpage
  have hge := hcright.order_le hright haligned (hmaxLeft block hblock) hall hother hpage hhead
  exact eq_of_mem haligned hotherAligned (le_antisymm hge hle) hhead hpage ▸ hother

theorem Canonical.eq_of_covered_eq : left = right :=
  Set.Subset.antisymm
    (Canonical.subset_of_covered_eq hleft hright hcleft hcright hmaxLeft hmaxRight hcovered)
    (Canonical.subset_of_covered_eq hright hleft hcright hcleft hmaxRight hmaxLeft hcovered.symm)

end

end KernelM5040.Dyadic
