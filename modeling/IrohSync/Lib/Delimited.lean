import Mathlib.Data.List.Basic

/-!
# Words and marks

A text is written as words, each followed by a mark, and a last word.  Nothing stands between
a word and its mark.  Two spellings of one text are the same where all marks have one length
and the words are as long, or where every mark has blanks in its second half and no word has
one.

Main results:

- Theorem {lit}`Delimited.eq_of_sameLayout`: spellings with the same layout.
- Theorem {lit}`Delimited.eq_of_plain`: spellings without blanks in the words.
-/

namespace Delimited

variable {α μ : Type}

/-- Words with their marks, and what stands behind the last mark. -/
structure Spelling (α μ : Type) where
  blocks : List (List α × μ)
  last : List α
deriving DecidableEq, Repr

/-- Write a word in front. -/
def Spelling.word (w : List α) (s : Spelling α μ) : Spelling α μ :=
  match s.blocks with
  | [] => { s with last := w ++ s.last }
  | (first, c) :: blocks => { s with blocks := (w ++ first, c) :: blocks }

/-- Write a mark in front. -/
def Spelling.mark (c : μ) (s : Spelling α μ) : Spelling α μ :=
  { s with blocks := ([], c) :: s.blocks }

/-- The text of some words with their marks, when it is known how a mark is written. -/
def text (write : μ → List α) : List (List α × μ) → List α → List α
  | [], last => last
  | (w, c) :: blocks, last => w ++ (write c ++ text write blocks last)

/-- The text of a spelling. -/
def Spelling.text (write : μ → List α) (s : Spelling α μ) : List α :=
  Delimited.text write s.blocks s.last

@[simp]
theorem text_word (write : μ → List α) (w : List α) (s : Spelling α μ) :
    (s.word w).text write = w ++ s.text write := by
  rcases s with ⟨_ | ⟨⟨first, c⟩, blocks⟩, last⟩
  · rfl
  · simp [Spelling.word, Spelling.text, text]

@[simp]
theorem text_mark (write : μ → List α) (c : μ) (s : Spelling α μ) :
    (s.mark c).text write = write c ++ s.text write :=
  rfl

/-- The length of each word that a mark follows. -/
def Spelling.layout (s : Spelling α μ) : List Nat :=
  s.blocks.map fun block => block.1.length

section

variable {write : μ → List α} {size : Nat}

/-- Marks of one length keep words of the same lengths apart. -/
theorem eq_of_sameLayout (hsize : ∀ c, (write c).length = size)
    (hwrite : Function.Injective write) {s t : Spelling α μ} (hlayout : s.layout = t.layout)
    (htext : s.text write = t.text write) : s = t := by
  rcases s with ⟨blocks, last⟩
  rcases t with ⟨blocks', last'⟩
  simp only [Spelling.layout, Spelling.text] at hlayout htext
  induction blocks generalizing blocks' with
  | nil =>
      cases blocks' with
      | nil => rw [show last = last' from htext]
      | cons block' blocks' => contradiction
  | cons block blocks ih =>
      cases blocks' with
      | nil => contradiction
      | cons block' blocks' =>
          rcases block with ⟨w, c⟩
          rcases block' with ⟨w', c'⟩
          rw [List.map_cons, List.map_cons, List.cons.injEq] at hlayout
          have hword := List.append_inj htext hlayout.1
          have hmark := List.append_inj hword.2 (by rw [hsize, hsize])
          have hrest := ih blocks' hlayout.2 hmark.2
          rw [Spelling.mk.injEq] at hrest
          rw [hword.1, hwrite hmark.1, hrest.1, hrest.2]

end

/-! ## Words without blanks -/

section

variable {write : μ → List α} {blank : α} {half : Nat}

/-- A mark that ends in as many blanks as other letters stand before them. -/
def Ends (write : μ → List α) (blank : α) (half : Nat) (c : μ) : Prop :=
  ∃ front : List α, front.length = half ∧ write c = front ++ List.replicate half blank

/-- The words have no blanks, and the marks end in blanks. -/
def PlainBlocks (write : μ → List α) (blank : α) (half : Nat) (blocks : List (List α × μ)) :
    Prop :=
  ∀ block ∈ blocks, blank ∉ block.1 ∧ Ends write blank half block.2

/-- The words of a spelling have no blanks, and its marks end in blanks. -/
structure Spelling.Plain (write : μ → List α) (blank : α) (half : Nat) (s : Spelling α μ) :
    Prop where
  blocks : PlainBlocks write blank half s.blocks
  last : blank ∉ s.last

theorem Spelling.Plain.mark {c : μ} {s : Spelling α μ} (h : s.Plain write blank half)
    (hc : Ends write blank half c) : (s.mark c).Plain write blank half :=
  ⟨List.forall_mem_cons.mpr ⟨⟨List.not_mem_nil, hc⟩, h.blocks⟩, h.last⟩

theorem Spelling.Plain.word {w : List α} {s : Spelling α μ} (hw : blank ∉ w)
    (h : s.Plain write blank half) : (s.word w).Plain write blank half := by
  rcases s with ⟨_ | ⟨⟨first, c⟩, blocks⟩, last⟩
  · exact ⟨h.blocks, by simpa [Spelling.word] using ⟨hw, h.last⟩⟩
  · rcases List.forall_mem_cons.mp h.blocks with ⟨⟨hfirst, hends⟩, hblocks⟩
    have hjoined : blank ∉ w ++ first := by simpa using ⟨hw, hfirst⟩
    exact ⟨List.forall_mem_cons.mpr ⟨⟨hjoined, hends⟩, hblocks⟩, h.last⟩

/-- A text with a mark has blanks. -/
theorem blank_mem_text {block : List α × μ} {blocks : List (List α × μ)} (hhalf : 0 < half)
    (hblocks : PlainBlocks write blank half (block :: blocks)) (last : List α) :
    blank ∈ text write (block :: blocks) last := by
  rcases block with ⟨w, c⟩
  rcases List.forall_mem_cons.mp hblocks with ⟨⟨_, front, _, hmark⟩, _⟩
  rw [text, hmark]
  simp [Nat.pos_iff_ne_zero.mp hhalf]

/-- A word without blanks that begins a text is over where a blank stands in it. -/
theorem prefix_of_blank {w x rest back : List α} (hw : blank ∉ w)
    (htext : x ++ blank :: rest = w ++ back) : ∃ x', x = w ++ x' ∧ back = x' ++ blank :: rest := by
  rcases List.append_eq_append_iff.mp htext with ⟨a, hwa, hrest⟩ | ⟨x', hx, hback⟩
  · cases a with
    | nil => exact ⟨[], by simpa using hwa.symm, by simpa using hrest.symm⟩
    | cons b a =>
        rw [List.cons_append, List.cons.injEq] at hrest
        obtain ⟨rfl, _⟩ := hrest
        exact absurd (hwa ▸ List.mem_append_right x List.mem_cons_self) hw
  · exact ⟨x', hx, hback⟩

/-- What stands behind blanks that are reached some letters later on the other side. -/
theorem eq_of_shifted_blanks {f rest rest' : List α} (hf : f.length ≤ half)
    (htext : f ++ (List.replicate half blank ++ rest) = List.replicate half blank ++ rest') :
    rest' = List.replicate f.length blank ++ rest := by
  obtain ⟨d, hd⟩ := Nat.exists_eq_add_of_le hf
  have hfront : List.replicate half blank =
      List.replicate f.length blank ++ List.replicate d blank := by
    rw [← List.replicate_add, hd]
  have hback : List.replicate half blank =
      List.replicate d blank ++ List.replicate f.length blank := by
    rw [← List.replicate_add, hd, Nat.add_comm]
  have hcut : f ++ (List.replicate d blank ++ (List.replicate f.length blank ++ rest)) =
      List.replicate f.length blank ++ (List.replicate d blank ++ rest') := by
    rw [← List.append_assoc (List.replicate d blank), ← hback, htext, hfront,
      List.append_assoc]
  have htail := (List.append_inj hcut (List.length_replicate).symm).2
  exact (List.append_cancel_left htail).symm

/-- A spelling that begins in the middle of a mark has a mark of its own there, whose last
blanks stand behind the first mark. -/
theorem blanks_of_shifted {blocks' : List (List α × μ)} {last' x rest : List α}
    (hblocks' : PlainBlocks write blank half blocks') (hlast' : blank ∉ last')
    (hx : x.length < half)
    (htext : x ++ (List.replicate half blank ++ rest) = text write blocks' last') :
    ∃ n tail, n < half ∧ PlainBlocks write blank half tail ∧
      rest = List.replicate (n + 1) blank ++ text write tail last' := by
  obtain ⟨k, rfl⟩ : ∃ k, half = k + 1 := ⟨half - 1, by omega⟩
  cases blocks' with
  | nil =>
      refine absurd ?_ hlast'
      rw [show last' = _ from htext.symm]
      simp
  | cons block' tail =>
      rcases block' with ⟨w', c'⟩
      rcases List.forall_mem_cons.mp hblocks' with ⟨⟨hword', front, hfront, hmark⟩, htail⟩
      rw [List.replicate_succ, List.cons_append] at htext
      rcases prefix_of_blank hword' htext with ⟨x', hxx', hback⟩
      have hx' : x'.length < front.length := by
        rw [hxx', List.length_append] at hx
        omega
      rw [hmark, List.append_assoc] at hback
      rcases List.append_eq_append_iff.mp hback with ⟨a, rfl, _⟩ | ⟨f, rfl, hshifted⟩
      · rw [List.length_append] at hx'
        omega
      · rw [List.length_append] at hx' hfront
        have hrest := eq_of_shifted_blanks (by omega) hshifted.symm
        refine ⟨f.length - 1, tail, by omega, htail, ?_⟩
        rwa [Nat.sub_add_cancel (by omega)]

/-- No spelling begins in the middle of a mark: its own first mark would end in blanks at a
place where the words go on, and so on until the text ends. -/
theorem text_ne_shifted {blocks blocks' : List (List α × μ)} {last last' x : List α}
    (hblocks : PlainBlocks write blank half blocks) (hlast : blank ∉ last)
    (hblocks' : PlainBlocks write blank half blocks') (hlast' : blank ∉ last')
    (hx : x.length < half) :
    x ++ (List.replicate half blank ++ text write blocks last) ≠ text write blocks' last' := by
  intro htext
  induction blocks generalizing blocks' x with
  | nil =>
      rcases blanks_of_shifted hblocks' hlast' hx htext with ⟨n, tail, _, _, hrest⟩
      refine hlast ?_
      rw [show last = _ from hrest]
      simp [List.replicate_succ]
  | cons block blocks ih =>
      rcases blanks_of_shifted hblocks' hlast' hx htext with ⟨n, tail, hn, htail, hrest⟩
      rcases block with ⟨w, c⟩
      rcases List.forall_mem_cons.mp hblocks with ⟨⟨hword, front, hfront, hmark⟩, hblocks⟩
      -- the next word begins with a blank, so it is empty
      rw [List.replicate_succ] at hrest
      rcases prefix_of_blank (x := []) hword hrest.symm with ⟨x', hxx', hback⟩
      obtain rfl : x' = [] := (List.append_eq_nil_iff.mp hxx'.symm).2
      -- so its mark begins with these blanks, and the other side goes on in the middle of it
      have hnext : front ++ (List.replicate half blank ++ text write blocks last) =
          List.replicate (n + 1) blank ++ text write tail last' := by
        rw [← List.append_assoc, ← hmark, hback]
        rfl
      rcases List.append_eq_append_iff.mp hnext with ⟨a, ha, hmiddle⟩ | ⟨y, hy, hmiddle⟩
      · have hlength := congrArg List.length ha
        rw [List.length_append, List.length_replicate] at hlength
        obtain rfl : a = [] := List.eq_nil_of_length_eq_zero (by omega)
        exact ih (x := []) hblocks htail (by omega) hmiddle
      · have hlength := congrArg List.length hy
        rw [List.length_append, List.length_replicate] at hlength
        exact ih hblocks htail (by omega) hmiddle.symm

/-- Of two spellings of one text neither begins with the longer word. -/
theorem length_le_of_text {blocks blocks' : List (List α × μ)} {last last' w w' : List α}
    {c c' : μ} (hblocks : PlainBlocks write blank half ((w, c) :: blocks)) (hlast : blank ∉ last)
    (hblocks' : PlainBlocks write blank half ((w', c') :: blocks')) (hlast' : blank ∉ last')
    (hhalf : 0 < half)
    (htext : text write ((w, c) :: blocks) last = text write ((w', c') :: blocks') last') :
    w'.length ≤ w.length := by
  rcases List.forall_mem_cons.mp hblocks with ⟨⟨_, front, hfront, hmark⟩, htail⟩
  rcases List.forall_mem_cons.mp hblocks' with ⟨⟨hword', hends'⟩, htail'⟩
  rcases List.append_eq_append_iff.mp htext with ⟨a, rfl, hrest⟩ | ⟨b, rfl, _⟩
  · -- the longer word goes on in the mark, up to the blanks
    obtain ⟨k, rfl⟩ : ∃ k, half = k + 1 := ⟨half - 1, by omega⟩
    have ha : blank ∉ a := fun hmem => hword' (List.mem_append_right w hmem)
    rw [hmark, List.append_assoc, List.replicate_succ] at hrest
    rcases prefix_of_blank ha hrest with ⟨y, hy, hback⟩
    by_contra hlonger
    have hlength := congrArg List.length hy
    rw [List.length_append] at hlength hlonger
    have hmiddle : PlainBlocks write blank (k + 1) (([], c') :: blocks') :=
      List.forall_mem_cons.mpr ⟨⟨List.not_mem_nil, hends'⟩, htail'⟩
    exact text_ne_shifted htail hlast hmiddle hlast' (x := y) (by omega) hback.symm
  · simp

/-- Spellings of one text are the same if their words have no blanks and their marks end in
blanks. -/
theorem eq_of_plain (hhalf : 0 < half) (hwrite : Function.Injective write)
    {s t : Spelling α μ} (hs : s.Plain write blank half) (ht : t.Plain write blank half)
    (htext : s.text write = t.text write) : s = t := by
  rcases s with ⟨blocks, last⟩
  rcases t with ⟨blocks', last'⟩
  rcases hs with ⟨hblocks, hlast⟩
  rcases ht with ⟨hblocks', hlast'⟩
  simp only [Spelling.text] at hblocks hlast hblocks' hlast' htext
  induction blocks generalizing blocks' with
  | nil =>
      cases blocks' with
      | nil => rw [show last = last' from htext]
      | cons block' blocks' =>
          have hblank := blank_mem_text hhalf hblocks' last'
          rw [← htext] at hblank
          exact absurd hblank hlast
  | cons block blocks ih =>
      cases blocks' with
      | nil =>
          have hblank := blank_mem_text hhalf hblocks last
          rw [htext] at hblank
          exact absurd hblank hlast'
      | cons block' blocks' =>
          rcases block with ⟨w, c⟩
          rcases block' with ⟨w', c'⟩
          have hlength : w.length = w'.length :=
            Nat.le_antisymm (length_le_of_text hblocks' hlast' hblocks hlast hhalf htext.symm)
              (length_le_of_text hblocks hlast hblocks' hlast' hhalf htext)
          rcases List.forall_mem_cons.mp hblocks with ⟨⟨_, front, hfront, hmark⟩, htail⟩
          rcases List.forall_mem_cons.mp hblocks' with ⟨⟨_, front', hfront', hmark'⟩, htail'⟩
          have hword := List.append_inj htext hlength
          have hmarks := List.append_inj hword.2 (by simp [hmark, hmark', hfront, hfront'])
          have hrest := ih blocks' hmarks.2 htail htail'
          rw [Spelling.mk.injEq] at hrest
          rw [hword.1, hwrite hmarks.1, hrest.1, hrest.2]

end

end Delimited
