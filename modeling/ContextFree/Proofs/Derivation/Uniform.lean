import ContextFree.Proofs.Automaton.Simulation
import ContextFree.Proofs.Derivation.Limit
import Mathlib.Data.Set.Card
import Mathlib.Order.Interval.Finset.Nat

/-!
# Every rule has the same chance

A draw below `n` gives each number the same chance, exactly: as many words select the one as the
other, and the words that select none are passed over.

* `Words.Selects` says that a word, if it comes next, settles a draw with a certain number, and
  `Words.selects_iff` says this with the two halves of a product.
* `Words.leadingZeros` is the number of zeros that `n` begins with.  Multiplied by two to this power
  `n` fills 32 bits and no more (`Words.mul_two_pow_le`), which is what `Words.zone` is made of
  (`Words.zone_add_one`).
* The words that select a number follow each other, from `Words.least` on
  (`Words.selects_iff_least`), so that they can be counted (`Words.ncard_selects`).  There is at
  least one of them, so that every member of a list can be chosen (`Words.exists_choose_eq`).
* `Grammar.step_uniform` says what this means for one step of a random derivation, and
  `Grammar.derive_of_step` is how a derivation goes on after that step.
-/

namespace ContextFree

namespace Words

variable {words rest : Words} {w : UInt32} {n i : Nat}

/-! ## Words that select a number -/

/-- A word selects a number below `n` if a draw for which it comes next takes this word alone and
ends with this number. -/
def Selects (w : UInt32) (i : Fin n) : Prop :=
  ∀ words rest : Words, words.next = (w, rest) → words.draw i.pos = (i, rest)

theorem selects_iff {i : Fin n} : Selects w i ↔ counts w n = true ∧ upperHalf w n = i := by
  constructor
  · intro h
    have hnext : next ⟨[w], 0⟩ = (w, ⟨[], 1⟩) := rfl
    have hdraw := h ⟨[w], 0⟩ ⟨[], 1⟩ hnext
    cases hw : counts w n with
    | true =>
      rw [draw_of_counts hnext i.pos hw] at hdraw
      exact ⟨rfl, congrArg (fun result => result.1.val) hdraw⟩
    | false =>
      -- then the draw takes the zero after the word as well
      rw [draw_of_not_counts hnext i.pos hw] at hdraw
      have htaken : 2 = 1 := congrArg (fun result => result.2.taken) hdraw
      omega
  · rintro ⟨hw, hupper⟩ words rest hnext
    rw [draw_of_counts hnext i.pos hw]
    exact Prod.ext (Fin.ext hupper) rfl

/-- A word that selects no number is passed over. -/
theorem draw_of_not_selects (hnext : words.next = (w, rest)) (h : 0 < n)
    (hw : ∀ i : Fin n, ¬ Selects w i) : words.draw h = rest.draw h := by
  refine draw_of_not_counts hnext h (Bool.eq_false_iff.2 fun hcounts => ?_)
  exact hw ⟨upperHalf w n, upperHalf_lt w h⟩ (selects_iff.2 ⟨hcounts, rfl⟩)

/-! ## The zone -/

/-- How many zeros a number begins with when it is written with 32 binary digits. -/
def leadingZeros (n : Nat) : Nat := (BitVec.ofNat 32 n).clz.toNat

/-- Without its leading zeros a number has as many digits as are left for it. -/
theorem two_pow_le_and_lt (hpos : 0 < n) (hn : n < wordCount) :
    leadingZeros n < 32 ∧ 2 ^ (31 - leadingZeros n) ≤ n ∧ n < 2 ^ (32 - leadingZeros n) := by
  have hnat : (BitVec.ofNat 32 n).toNat = n := by
    rw [BitVec.toNat_ofNat]
    exact Nat.mod_eq_of_lt hn
  have hne : BitVec.ofNat 32 n ≠ 0#32 := by
    intro h
    rw [h] at hnat
    simp at hnat
    omega
  have hlow := BitVec.two_pow_sub_clz_le_toNat_of_ne_zero (by decide) hne
  have hhigh := BitVec.toNat_lt_two_pow_sub_clz (x := BitVec.ofNat 32 n)
  have hzeros : (BitVec.ofNat 32 n).clz < 32#32 := BitVec.clz_lt_iff_ne_zero.2 hne
  rw [hnat] at hlow hhigh
  exact ⟨hzeros, hlow, hhigh⟩

theorem leadingZeros_eq (hpos : 0 < n) (hn : n < wordCount) : leadingZeros n = 31 - n.log2 := by
  obtain ⟨hzeros, hlow, hhigh⟩ := two_pow_le_and_lt hpos hn
  have hlog : n.log2 = 31 - leadingZeros n := by
    rw [Nat.log2_eq_iff (Nat.ne_of_gt hpos)]
    have hdigits : 31 - leadingZeros n + 1 = 32 - leadingZeros n := by omega
    exact ⟨hlow, hdigits ▸ hhigh⟩
  omega

/-- A number without its leading zeros fills 32 digits and no more. -/
theorem mul_two_pow_le (hpos : 0 < n) (hn : n < wordCount) :
    n * 2 ^ leadingZeros n ≤ wordCount := by
  obtain ⟨hzeros, -, hhigh⟩ := two_pow_le_and_lt hpos hn
  calc n * 2 ^ leadingZeros n
      ≤ 2 ^ (32 - leadingZeros n) * 2 ^ leadingZeros n :=
        Nat.mul_le_mul_right _ (Nat.le_of_lt hhigh)
    _ = 2 ^ 32 := by rw [← Nat.pow_add, Nat.sub_add_cancel (Nat.le_of_lt hzeros)]
    _ = wordCount := rfl

theorem zone_add_one (hpos : 0 < n) (hn : n < wordCount) :
    zone n + 1 = n * 2 ^ leadingZeros n := by
  have hfilled : 0 < n * 2 ^ leadingZeros n := Nat.mul_pos hpos (Nat.two_pow_pos _)
  rw [zone, ← leadingZeros_eq hpos hn, Nat.shiftLeft_eq]
  omega

/-! ## Counting words -/

/-- The product of a word that selects a number lies in a band that begins at a multiple of the
number of words. -/
theorem selects_iff_band (hn : n < wordCount) {i : Fin n} :
    Selects w i ↔ i * wordCount ≤ w.toNat * n ∧
      w.toNat * n < i * wordCount + n * 2 ^ leadingZeros n := by
  have hzone := zone_add_one i.pos hn
  have hband := mul_two_pow_le i.pos hn
  have hsplit := Nat.div_add_mod (w.toNat * n) wordCount
  rw [selects_iff, counts, upperHalf, decide_eq_true_eq]
  constructor
  · rintro ⟨hlower, hupper⟩
    rw [hupper, Nat.mul_comm wordCount] at hsplit
    omega
  · rintro ⟨hle, hlt⟩
    have hupper : w.toNat * n / wordCount = i := by
      refine Nat.div_eq_of_lt_le hle ?_
      rw [Nat.add_mul, Nat.one_mul]
      omega
    rw [hupper, Nat.mul_comm wordCount] at hsplit
    exact ⟨by omega, hupper⟩

/-- The least number whose product with `n` is `i` times the number of words, or more. -/
def least (n i : Nat) : Nat := (i * wordCount + (n - 1)) / n

/-- The product of the least word goes beyond what it has to reach by less than `n`. -/
theorem exists_least_mul (hi : i < n) : ∃ r < n, least n i * n = i * wordCount + r := by
  have hdivision := Nat.div_add_mod (i * wordCount + (n - 1)) n
  have hmod := Nat.mod_lt (i * wordCount + (n - 1)) (Nat.zero_lt_of_lt hi)
  have hproduct : least n i * n + (i * wordCount + (n - 1)) % n = i * wordCount + (n - 1) := by
    rw [Nat.mul_comm]
    exact hdivision
  exact ⟨n - 1 - (i * wordCount + (n - 1)) % n, by omega, by omega⟩

/-- The words that select a number follow each other. -/
theorem selects_iff_least (hn : n < wordCount) {i : Fin n} :
    Selects w i ↔ least n i ≤ w.toNat ∧ w.toNat < least n i + 2 ^ leadingZeros n := by
  obtain ⟨r, hr, hleast⟩ := exists_least_mul i.isLt
  rw [selects_iff_band hn]
  constructor
  · rintro ⟨hle, hlt⟩
    constructor
    · refine Nat.le_of_not_lt fun hlt' => ?_
      have hproduct := Nat.mul_le_mul_right n (Nat.succ_le_of_lt hlt')
      rw [Nat.succ_mul, hleast] at hproduct
      omega
    · refine Nat.lt_of_not_le fun hle' => ?_
      have hproduct := Nat.mul_le_mul_right n hle'
      rw [Nat.add_mul, hleast, Nat.mul_comm (2 ^ leadingZeros n) n] at hproduct
      omega
  · rintro ⟨hle, hlt⟩
    have hlow := Nat.mul_le_mul_right n hle
    have hhigh := Nat.mul_le_mul_right n (Nat.succ_le_of_lt hlt)
    rw [Nat.succ_mul, Nat.add_mul, hleast, Nat.mul_comm (2 ^ leadingZeros n) n] at hhigh
    rw [hleast] at hlow
    omega

/-- All these numbers are words. -/
theorem least_add_le (hn : n < wordCount) (i : Fin n) :
    least n i + 2 ^ leadingZeros n ≤ wordCount := by
  obtain ⟨r, hr, hleast⟩ := exists_least_mul i.isLt
  have hband := mul_two_pow_le i.pos hn
  have hwhole : (i + 1) * wordCount ≤ n * wordCount := Nat.mul_le_mul_right wordCount i.isLt
  have hlt : (least n i + 2 ^ leadingZeros n) * n < (wordCount + 1) * n := by
    rw [Nat.add_mul, Nat.add_mul, Nat.one_mul, hleast, Nat.mul_comm (2 ^ leadingZeros n) n,
      Nat.mul_comm wordCount n]
    rw [Nat.add_mul, Nat.one_mul] at hwhole
    omega
  exact Nat.le_of_lt_succ (Nat.lt_of_mul_lt_mul_right hlt)

/-- Each number is selected by the same number of words. -/
theorem ncard_selects (hn : n < wordCount) (i : Fin n) :
    {w : UInt32 | Selects w i}.ncard = 2 ^ leadingZeros n := by
  have hinjective : Function.Injective UInt32.toNat := fun _ _ => UInt32.toNat_inj.1
  have himage : UInt32.toNat '' {w | Selects w i} =
      Finset.Ico (least n i) (least n i + 2 ^ leadingZeros n) := by
    ext k
    rw [Set.mem_image, Finset.mem_coe, Finset.mem_Ico]
    constructor
    · rintro ⟨w, hw, rfl⟩
      exact (selects_iff_least hn).1 hw
    · intro hk
      have hword : (UInt32.ofNat k).toNat = k :=
        UInt32.toNat_ofNat_of_lt (Nat.lt_of_lt_of_le hk.2 (least_add_le hn i))
      exact ⟨UInt32.ofNat k, (selects_iff_least hn).2 (by rwa [hword]), hword⟩
  rw [← Set.ncard_image_of_injective _ hinjective, himage, Set.ncard_coe_finset, Nat.card_Ico,
    Nat.add_sub_cancel_left]

/-- Each number is selected by some word. -/
theorem exists_selects (hn : n < wordCount) (i : Fin n) : ∃ w, Selects w i := by
  have hcard : {w : UInt32 | Selects w i}.ncard ≠ 0 := by
    rw [ncard_selects hn i]
    exact Nat.ne_of_gt (Nat.two_pow_pos _)
  exact Set.nonempty_of_ncard_ne_zero hcard

/-! ## Choosing a member -/

variable {α : Type} {items : List α}

theorem choose_of_selects (hnext : words.next = (w, rest)) (h : items ≠ [])
    {i : Fin items.length} (hw : Selects w i) : words.choose items h = (items.get i, rest) := by
  have hdraw := hw words rest hnext
  rw [choose, hdraw]

theorem choose_of_not_selects (hnext : words.next = (w, rest)) (h : items ≠ [])
    (hw : ∀ i : Fin items.length, ¬ Selects w i) :
    words.choose items h = rest.choose items h := by
  rw [choose, choose, draw_of_not_selects hnext _ hw]

/-- Every member of a list can be chosen with one word, whatever the words after it are. -/
theorem exists_choose_eq {a : α} (ha : a ∈ items) (hitems : items.length < wordCount) :
    ∃ w : UInt32, ∀ (h : items ≠ []) (taken : Nat) (rest : List UInt32),
      choose ⟨w :: rest, taken⟩ items h = (a, ⟨rest, taken + 1⟩) := by
  obtain ⟨i, hi, rfl⟩ := List.getElem_of_mem ha
  obtain ⟨w, hw⟩ := exists_selects hitems ⟨i, hi⟩
  exact ⟨w, fun h taken rest => choose_of_selects rfl h hw⟩

end Words

namespace Grammar

/-- A step of a random derivation gives each production for the symbol that it replaces the same
chance.  Of the words that may come next, as many select the production at one place as at any other
place, namely two to the power of the leading zeros of the number of productions; the step takes no
other word then.  Any other word is passed over, as if it had not been there. -/
theorem step_uniform (g : Grammar) {form : Form} {r : Redex} (hr : g.redex? form = some r)
    (hn : (g.rulesFor r.head).length < Words.wordCount) :
    (∀ i : Fin (g.rulesFor r.head).length,
      {w : UInt32 | Words.Selects w i}.ncard =
          2 ^ Words.leadingZeros (g.rulesFor r.head).length ∧
        ∀ (p : Progress) (w : UInt32) (rest : Words), p.form = form → p.words.next = (w, rest) →
          Words.Selects w i →
            p.step? g.toDeclaration =
              some ⟨r.fill ((g.rulesFor r.head).get i).body, form :: p.earlier,
                (g.rulesFor r.head).get i :: p.rules, rest⟩) ∧
    ∀ (p : Progress) (w : UInt32) (rest : Words), p.form = form → p.words.next = (w, rest) →
      (∀ i : Fin (g.rulesFor r.head).length, ¬ Words.Selects w i) →
        p.step? g.toDeclaration = { p with words := rest }.step? g.toDeclaration := by
  have hrules : g.rulesFor r.head ≠ [] := (Declaration.redex?_eq_some hr).2.1
  refine ⟨fun i => ⟨Words.ncard_selects hn i, ?_⟩, ?_⟩
  · rintro p w rest rfl hnext hw
    exact Progress.step?_of_choose hr hrules (Words.choose_of_selects hnext hrules hw)
  · rintro p w rest rfl hnext hw
    have hskip := Words.choose_of_not_selects hnext hrules hw
    have hwithout := Progress.step?_of_choose (p := { p with words := rest }) hr hrules rfl
    rw [Progress.step?_of_choose hr hrules hskip, hwithout]

/-- In the form `aSB` the symbol `S` is replaced by one of its two bodies.  A quarter of all words
selects the one, a quarter the other.  The word in the middle is the first that selects the empty
body, and the greatest word is passed over.  A random derivation that begins with the word zero
comes to this form, so that the word after it decides what it goes on with. -/
theorem nested_step_uniform :
    nested.redex? ["a", "S", "B"] = some ⟨["a"], "S", ["B"]⟩ ∧
      (nested.rulesFor "S").length = 2 ∧
      (∀ i : Fin (nested.rulesFor "S").length, {w : UInt32 | Words.Selects w i}.ncard = 2 ^ 30) ∧
      Progress.step? nested.toDeclaration
          ⟨["a", "S", "B"], [["S"]], [⟨"S", ["a", "S", "B"]⟩], ⟨[4294967295, 2147483648], 1⟩⟩ =
        some ⟨["a", "B"], [["a", "S", "B"], ["S"]], [⟨"S", []⟩, ⟨"S", ["a", "S", "B"]⟩],
          ⟨[], 3⟩⟩ ∧
      ∀ limit, nested.derive ⟨[0, 4294967295, 2147483648], 0⟩ (1 + (limit + 1)) =
        match Progress.finish nested.toDeclaration limit
          ⟨["a", "B"], [["a", "S", "B"], ["S"]], [⟨"S", []⟩, ⟨"S", ["a", "S", "B"]⟩],
            ⟨[], 3⟩⟩ with
        | .ok last => (.ok last.derivation, last.words)
        | .error last => (.error ⟨1 + (limit + 1)⟩, last.words) := by
  have hredex : nested.redex? ["a", "S", "B"] = some ⟨["a"], "S", ["B"]⟩ := by decide
  have hzeros : Words.leadingZeros (nested.rulesFor "S").length = 30 := by decide
  obtain ⟨hselected, hpassed⟩ := step_uniform nested hredex (by decide)
  have hmiddle : Words.Selects 2147483648 (⟨1, by decide⟩ : Fin (nested.rulesFor "S").length) :=
    Words.selects_iff.2 (by decide)
  have hgreatest : ∀ i : Fin (nested.rulesFor "S").length, ¬ Words.Selects 4294967295 i := by
    intro i hi
    exact absurd (Words.selects_iff.1 hi).1 (by decide)
  have hstep : Progress.step? nested.toDeclaration
      ⟨["a", "S", "B"], [["S"]], [⟨"S", ["a", "S", "B"]⟩], ⟨[4294967295, 2147483648], 1⟩⟩ =
      some ⟨["a", "B"], [["a", "S", "B"], ["S"]], [⟨"S", []⟩, ⟨"S", ["a", "S", "B"]⟩],
        ⟨[], 3⟩⟩ := by
    rw [hpassed _ 4294967295 ⟨[2147483648], 2⟩ rfl rfl hgreatest]
    exact (hselected ⟨1, by decide⟩).2 _ 2147483648 ⟨[], 3⟩ rfl rfl hmiddle
  have hcome : Progress.after nested.toDeclaration 1
      ⟨[nested.start], [], [], ⟨[0, 4294967295, 2147483648], 0⟩⟩ =
      some ⟨["a", "S", "B"], [["S"]], [⟨"S", ["a", "S", "B"]⟩],
        ⟨[4294967295, 2147483648], 1⟩⟩ := by decide +kernel
  refine ⟨hredex, rfl, fun i => ?_, hstep, derive_of_step hcome hstep⟩
  rw [← hzeros]
  exact (hselected i).1

end Grammar

end ContextFree
