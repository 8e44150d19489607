import Highlight.Proofs.Language.Placeholder

/-!
The grammar of placeholders. A derivation names the parts of a placeholder, each of which may be
missing, and its text puts them behind one another. The parts are read greedily: each is as long as
it can be, and since what may follow a part never continues it (`Begins`), reading finds every part
of a derivation in its place. So no text begins with two placeholders.
-/

namespace Highlight.Placeholder

open Byte

/-! ### Derivations -/

/-- Digits, maybe none. -/
abbrev Digits := { w : Text // ∀ b ∈ w, isDigit b = true }

/-- An argument: a number, or a name in brackets. -/
inductive Argument where
  | number (first : Byte) (rest : Text) (digits : ∀ b ∈ first :: rest, isDigit b = true)
  | name (first : Byte) (rest : Text) (starts : isNameStart first = true)
      (continues : ∀ b ∈ rest, isNameByte b = true)

/-- A specifier: a letter or sign of its own, or the word `any`. -/
inductive Specifier where
  | letter (b : Byte) (known : b ∈ specifiers)
  | any

/-- The first byte of a character that `n` more bytes continue. -/
def Announces (lead : Byte) (n : Nat) : Prop :=
  (0xC0 ≤ lead ∧ lead ≤ 0xDF ∧ n = 1) ∨ (0xE0 ≤ lead ∧ lead ≤ 0xEF ∧ n = 2) ∨
    (0xF0 ≤ lead ∧ lead ≤ 0xF7 ∧ n = 3)

/-- A fill character: a byte with those that continue it, or a byte by itself. A mark of alignment
follows, so a byte by itself is never one that others continue. -/
inductive Fill where
  | encoded (lead : Byte) (more : Text) (announces : Announces lead more.length)
      (continues : ∀ b ∈ more, isContinuation b = true)
  | alone (b : Byte) (allowed : b ≠ 0 ∧ b ≠ lbrace ∧ b ≠ rbrace)

/-- A mark of alignment, behind a fill character or by itself. -/
structure Alignment where
  fill : Option Fill
  mark : Byte
  isMark : isAlignment mark = true

/-- What stands behind a colon. -/
structure Options where
  alignment : Option Alignment
  width : Digits
  precision : Option Digits

/-- The parts of a placeholder. -/
structure Derivation where
  argument : Option Argument
  specifier : Option Specifier
  options : Option Options

/-- The text of a part, empty if the part is missing. -/
def part {α : Type} (text : α → Text) (o : Option α) : Text := o.elim [] text

def Argument.text : Argument → Text
  | number first rest _ => first :: rest
  | name first rest _ _ => lbracket :: first :: (rest ++ [rbracket])

def Specifier.text : Specifier → Text
  | letter b _ => [b]
  | any => [lowerA, lowerN, lowerY]

def Fill.text : Fill → Text
  | encoded lead more _ _ => lead :: more
  | alone b _ => [b]

def Alignment.text (a : Alignment) : Text := part Fill.text a.fill ++ [a.mark]

/-- The text of a precision, with its point. -/
def precisionText (w : Digits) : Text := dot :: w.1

/-- The text of a width and a precision. -/
def sizes (width : Digits) (precision : Option Digits) : Text :=
  width.1 ++ part precisionText precision

def Options.text (o : Options) : Text :=
  colon :: (part Alignment.text o.alignment ++ sizes o.width o.precision)

namespace Derivation

/-- The text of a derivation between its braces. -/
def inner (d : Derivation) : Text :=
  part Argument.text d.argument ++ (part Specifier.text d.specifier ++ part Options.text d.options)

/-- The text of a derivation. -/
def text (d : Derivation) : Text := lbrace :: (d.inner ++ [rbrace])

/-- What is to be read of a derivation: its length, and where its specifier stands. -/
def placeholder (d : Derivation) : Placeholder where
  length := d.text.length
  specStart := 1 + (part Argument.text d.argument).length
  specStop := 1 + (part Argument.text d.argument).length +
    (part Specifier.text d.specifier).length

end Derivation

/-- A placeholder goes over all of these bytes. -/
def Passable (closer : Option Byte) (w : Text) : Prop := ∀ b ∈ w, stops closer b = false

/-- The text begins with what the derivation derives, and behind the brace no byte of that ends the
line or closes the literal. -/
structure Derivation.Begins (closer : Option Byte) (t : Text) (d : Derivation) : Prop where
  text : d.text <+: t
  passable : Passable closer d.text.tail

variable {closer : Option Byte} {t u v w : Text} {b : Byte} {kind : Byte → Bool} {p : Byte → Prop}

theorem Passable.nil : Passable closer [] := nofun

theorem Passable.left (h : Passable closer (w ++ u)) : Passable closer w :=
  fun b hb => h b (List.mem_append_left u hb)

theorem Passable.right (h : Passable closer (w ++ u)) : Passable closer u :=
  fun b hb => h b (List.mem_append_right w hb)

theorem Passable.append (h : Passable closer w) (h' : Passable closer u) :
    Passable closer (w ++ u) := by
  intro b hb
  exact (List.mem_append.1 hb).elim (h b) (h' b)

theorem Passable.head (h : Passable closer (b :: w)) : stops closer b = false :=
  h b List.mem_cons_self

theorem Passable.tail (h : Passable closer (b :: w)) : Passable closer w :=
  fun a ha => h a (List.mem_cons_of_mem b ha)

/-! ### Reading bytes -/

/-- The text begins with such a byte, over which a placeholder goes. -/
def Begins (closer : Option Byte) (p : Byte → Prop) (t : Text) : Prop :=
  ∃ b u, t = b :: u ∧ stops closer b = false ∧ p b

theorem byteAt_cons (hb : stops closer b = false) (t : Text) : byteAt closer (b :: t) 0 = b := by
  simp [byteAt, hb]

theorem byteAt_append (closer : Option Byte) (w u : Text) (n : Nat) :
    byteAt closer (w ++ u) (w.length + n) = byteAt closer u n := by
  rw [← byteAt_drop, List.drop_left]

/-- A byte that reads as itself is there, and a placeholder goes over it. -/
theorem cons_of_byteAt (h : byteAt closer t 0 = b) (hb : b ≠ 0) :
    ∃ u, t = b :: u ∧ stops closer b = false := by
  cases t with
  | nil => exact absurd (h.symm.trans (by simp [byteAt])) hb
  | cons a u =>
    by_cases ha : stops closer a = true
    · simp only [byteAt, List.getD_cons_zero, ha, if_true] at h
      exact absurd h.symm hb
    · rw [Bool.not_eq_true] at ha
      rw [byteAt_cons ha] at h
      exact ⟨u, by rw [h], h ▸ ha⟩

theorem Begins.mono {q : Byte → Prop} (h : Begins closer p t) (hpq : ∀ b, p b → q b) :
    Begins closer q t := by
  obtain ⟨b, u, rfl, hb, hp⟩ := h
  exact ⟨b, u, rfl, hb, hpq b hp⟩

theorem Begins.byteAt (h : Begins closer p t) : p (byteAt closer t 0) := by
  obtain ⟨b, u, rfl, hb, hp⟩ := h
  rwa [byteAt_cons hb]

/-! ### Reading bytes of one kind -/

/-- All bytes of one kind are read that stand before one of another kind. -/
theorem lengthOf_append (hw : ∀ b ∈ w, kind b = true) (hpass : Passable closer w)
    (hu : Begins closer (kind · = false) u) : lengthOf closer kind (w ++ u) = w.length := by
  obtain ⟨b, v, rfl, -, hb⟩ := hu
  have hall : ∀ a ∈ w, (kind a && !stops closer a) = true := by
    intro a ha
    rw [hw a ha, hpass a ha]
    rfl
  rw [lengthOf, List.takeWhile_append_of_pos hall, List.takeWhile_cons, hb]
  simp

/-- What is read of one kind is of that kind. -/
theorem exists_of_lengthOf (closer : Option Byte) (kind : Byte → Bool) (t : Text) :
    ∃ w u, t = w ++ u ∧ lengthOf closer kind t = w.length ∧ (∀ b ∈ w, kind b = true) ∧
      Passable closer w := by
  refine ⟨t.takeWhile fun b => kind b && !stops closer b, _,
    (List.takeWhile_append_dropWhile ..).symm, rfl, fun b hb => ?_, fun b hb => ?_⟩
  · have := List.all_eq_true.1 List.all_takeWhile b hb
    rw [Bool.and_eq_true] at this
    exact this.1
  · have := List.all_eq_true.1 List.all_takeWhile b hb
    rw [Bool.and_eq_true, Bool.not_eq_true'] at this
    exact this.2

/-! ### What follows a part -/

/-- Behind the parts of a placeholder stands its closing brace. -/
theorem begins_rbrace (h : stops closer rbrace = false) (r : Text) :
    Begins closer (· = rbrace) (rbrace :: r) := ⟨_, _, rfl, h, rfl⟩

theorem begins_precision (o : Option Digits) (hp : Passable closer (part precisionText o))
    (hu : Begins closer (· = rbrace) u) :
    Begins closer (fun b => b = dot ∨ b = rbrace) (part precisionText o ++ u) := by
  cases o with
  | none => exact hu.mono fun _ => .inr
  | some w => exact ⟨dot, w.1 ++ u, rfl, hp.head, .inl rfl⟩

theorem begins_width (w : Digits) (hp : Passable closer w.1)
    (hu : Begins closer (fun b => b = dot ∨ b = rbrace) u) :
    Begins closer (fun b => isDigit b = true ∨ b = dot ∨ b = rbrace) (w.1 ++ u) := by
  obtain ⟨_ | ⟨b, w⟩, hw⟩ := w
  · exact hu.mono fun _ => .inr
  · exact ⟨b, w ++ u, rfl, hp.head, .inl (hw b List.mem_cons_self)⟩

theorem begins_options (o : Option Options) (hp : Passable closer (part Options.text o))
    (hu : Begins closer (· = rbrace) u) :
    Begins closer (fun b => b = colon ∨ b = rbrace) (part Options.text o ++ u) := by
  cases o with
  | none => exact hu.mono fun _ => .inr
  | some o => exact ⟨colon, _, rfl, hp.head, .inl rfl⟩

theorem begins_specifier (s : Option Specifier) (hp : Passable closer (part Specifier.text s))
    (hu : Begins closer (fun b => b = colon ∨ b = rbrace) u) :
    Begins closer (fun b => b ∈ specifiers ∨ b = colon ∨ b = rbrace)
      (part Specifier.text s ++ u) := by
  rcases s with _ | ⟨b, hb⟩ | _
  · exact hu.mono fun _ => .inr
  · exact ⟨b, u, rfl, hp.head, .inl hb⟩
  · exact ⟨lowerA, _, rfl, hp.head, .inl (by decide)⟩

/-! ### Reading the options -/

theorem not_isDigit_of_end (h : b = dot ∨ b = rbrace) : isDigit b = false := by
  rcases h with rfl | rfl <;> rfl

theorem precisionLength_append (o : Option Digits) (hp : Passable closer (part precisionText o))
    (hu : Begins closer (· = rbrace) u) :
    precisionLength closer (part precisionText o ++ u) = (part precisionText o).length := by
  cases o with
  | none =>
    rw [precisionLength, if_neg]
    · rfl
    · change byteAt closer u 0 ≠ dot
      rw [hu.byteAt]
      decide
  | some w =>
    have hwidth : lengthOf closer isDigit (w.1 ++ u) = w.1.length :=
      lengthOf_append w.2 hp.tail (hu.mono fun _ h => not_isDigit_of_end (.inr h))
    have hdot : byteAt closer (part precisionText (some w) ++ u) 0 = dot := byteAt_cons hp.head _
    rw [precisionLength, if_pos hdot]
    change lengthOf closer isDigit (w.1 ++ u) + 1 = _
    rw [hwidth]
    rfl

/-- No byte that may stand behind an alignment is a mark. -/
theorem not_isAlignment_of_width (h : isDigit b = true ∨ b = dot ∨ b = rbrace) :
    isAlignment b = false := by
  rcases h with h | rfl | rfl
  · simp only [isDigit, isAlignment, Bool.and_eq_true, decide_eq_true_eq, Bool.or_eq_false_iff,
      beq_eq_false_iff_ne] at *
    grind
  · rfl
  · rfl

theorem eq_of_isAlignment (h : isAlignment b = true) : b = less ∨ b = caret ∨ b = greater := by
  simpa [isAlignment, or_assoc] using h

/-- A byte announces the bytes that continue it. -/
theorem Announces.eq {lead : Byte} {n : Nat} (h : Announces lead n) :
    announcedLength lead = n + 1 := by
  unfold announcedLength
  rcases h with ⟨h₁, h₂, rfl⟩ | ⟨h₁, h₂, rfl⟩ | ⟨h₁, h₂, rfl⟩ <;> grind

theorem Announces.allowed {lead : Byte} {n : Nat} (h : Announces lead n) :
    (lead ≠ 0 ∧ lead ≠ lbrace ∧ lead ≠ rbrace) ∧ 0 < n := by
  rcases h with ⟨h₁, -, rfl⟩ | ⟨h₁, -, rfl⟩ | ⟨h₁, -, rfl⟩ <;> grind

theorem announces_of_announcedLength {lead : Byte} (h : announcedLength lead ≠ 1) :
    Announces lead (announcedLength lead - 1) := by
  unfold announcedLength at h ⊢
  split_ifs at h ⊢ with h₂ h₃ h₄
  · exact .inl ⟨h₂.1, h₂.2, rfl⟩
  · exact .inr (.inl ⟨h₃.1, h₃.2, rfl⟩)
  · exact .inr (.inr ⟨h₄.1, h₄.2, rfl⟩)
  · exact absurd rfl h

/-- A fill character is read whole if a mark of alignment stands behind it. -/
theorem fillLength_append (f : Fill) (hp : Passable closer f.text)
    (hu : Begins closer (isAlignment · = true) u) :
    fillLength closer (f.text ++ u) = f.text.length := by
  have hmark : Begins closer (isContinuation · = false) u := by
    refine hu.mono fun b hb => ?_
    rcases eq_of_isAlignment hb with rfl | rfl | rfl <;> rfl
  cases f with
  | encoded lead more announces continues =>
    have hmore : lengthOf closer isContinuation (more ++ u) = more.length :=
      lengthOf_append continues hp.tail hmark
    obtain ⟨⟨h₀, hl, hr⟩, -⟩ := announces.allowed
    have hbyte : byteAt closer (lead :: (more ++ u)) 0 = lead := byteAt_cons hp.head _
    rw [fillLength]
    simp only [Fill.text, List.cons_append, List.drop_one, List.tail_cons, hbyte, announces.eq,
      hmore, Nat.add_sub_cancel]
    rw [if_neg (by simp [h₀, hl, hr]), if_pos (Nat.le_refl _)]
    rfl
  | alone b allowed =>
    have hnone : lengthOf closer isContinuation u = 0 :=
      lengthOf_append (w := []) nofun nofun hmark
    have hbyte : byteAt closer (b :: u) 0 = b := byteAt_cons hp.head _
    rw [fillLength]
    simp only [Fill.text, List.cons_append, List.nil_append, List.drop_one, List.tail_cons, hbyte,
      hnone]
    rw [if_neg (by simpa using allowed)]
    split_ifs with hmore
    · rw [Nat.le_zero.1 hmore]
      rfl
    · rfl

/-- A byte of ASCII that may fill is a fill character by itself. -/
theorem fillLength_of_ascii (hb : byteAt closer t 0 = b) (hascii : b < 0x80)
    (hallowed : b ≠ 0 ∧ b ≠ lbrace ∧ b ≠ rbrace) : fillLength closer t = 1 := by
  have hone : announcedLength b = 1 := by
    unfold announcedLength
    grind
  simp only [fillLength, hb, hone]
  rw [if_neg (by simpa using hallowed), if_pos (Nat.zero_le _)]

/-- Behind an alignment stand a digit, a point or the closing brace. -/
theorem begins_sizes {width : Digits} {precision : Option Digits}
    (hp : Passable closer (sizes width precision)) (hu : Begins closer (· = rbrace) u) :
    Begins closer (fun b => isDigit b = true ∨ b = dot ∨ b = rbrace)
      (sizes width precision ++ u) := by
  rw [sizes, List.append_assoc]
  exact begins_width width hp.left (begins_precision precision hp.right hu)

/-- Behind the first byte of what stands behind an alignment no mark stands either. -/
theorem begins_sizes_tail {width : Digits} {precision : Option Digits}
    (hp : Passable closer (sizes width precision)) (hu : Begins closer (· = rbrace) u)
    (he : sizes width precision ++ u = b :: v) (hb : b ≠ rbrace) :
    Begins closer (fun b => isDigit b = true ∨ b = dot ∨ b = rbrace) v := by
  obtain ⟨_ | ⟨a, w⟩, hw⟩ := width
  · cases precision with
    | none =>
      obtain ⟨c, u, rfl, -, rfl⟩ := hu
      obtain ⟨rfl, -⟩ := List.cons.inj he
      exact absurd rfl hb
    | some w =>
      obtain ⟨-, rfl⟩ := List.cons.inj he
      exact begins_width w (Passable.tail hp) (hu.mono fun _ => .inr)
  · obtain ⟨-, rfl⟩ := List.cons.inj he
    have hw' : ∀ b ∈ w, isDigit b = true := fun b hb => hw b (List.mem_cons_of_mem _ hb)
    have hsizes : Passable closer (sizes ⟨w, hw'⟩ precision) := Passable.tail hp
    exact begins_sizes hsizes hu

/-- What stands behind an alignment is no alignment: its first byte is a digit or a point, and no
mark stands behind it. -/
theorem not_filled_of_sizes {width : Digits} {precision : Option Digits}
    (hp : Passable closer (sizes width precision)) (hu : Begins closer (· = rbrace) u) :
    ¬(0 < fillLength closer (sizes width precision ++ u) ∧
      isAlignment (byteAt closer (sizes width precision ++ u)
        (fillLength closer (sizes width precision ++ u))) = true) := by
  obtain ⟨b, v, he, hb, hkind⟩ := begins_sizes hp hu
  have hbyte : byteAt closer (sizes width precision ++ u) 0 = b := he ▸ byteAt_cons hb v
  by_cases hr : b = rbrace
  · simp [fillLength, hbyte, hr]
  · have hascii : b < 0x80 ∧ b ≠ 0 ∧ b ≠ lbrace := by
      simp only [isDigit, Bool.and_eq_true, decide_eq_true_eq] at hkind
      grind
    have htail := (begins_sizes_tail hp hu he hr).byteAt
    rw [fillLength_of_ascii hbyte hascii.1 ⟨hascii.2.1, hascii.2.2, hr⟩, he]
    change ¬(0 < 1 ∧ isAlignment (byteAt closer ([b] ++ v) ([b].length + 0)) = true)
    rw [byteAt_append, not_isAlignment_of_width htail]
    simp

theorem alignmentLength_append (o : Option Alignment) {width : Digits} {precision : Option Digits}
    (hp : Passable closer (part Alignment.text o)) (hs : Passable closer (sizes width precision))
    (hu : Begins closer (· = rbrace) u) :
    alignmentLength closer (part Alignment.text o ++ (sizes width precision ++ u)) =
      (part Alignment.text o).length := by
  have hend : isAlignment (byteAt closer (sizes width precision ++ u) 0) = false :=
    not_isAlignment_of_width (begins_sizes hs hu).byteAt
  rcases o with _ | ⟨_ | f, mark, hmark⟩
  · change alignmentLength closer (sizes width precision ++ u) = 0
    rw [alignmentLength, if_neg (not_filled_of_sizes hs hu), hend]
    rfl
  · have hbyte : byteAt closer (mark :: (sizes width precision ++ u)) 0 = mark :=
      byteAt_cons hp.head _
    have hone : fillLength closer (mark :: (sizes width precision ++ u)) = 1 := by
      rcases eq_of_isAlignment hmark with rfl | rfl | rfl <;>
        exact fillLength_of_ascii hbyte (by decide) (by decide)
    have hnext : byteAt closer (mark :: (sizes width precision ++ u)) 1 =
        byteAt closer (sizes width precision ++ u) 0 :=
      byteAt_append closer [mark] (sizes width precision ++ u) 0
    change alignmentLength closer (mark :: (sizes width precision ++ u)) = 1
    rw [alignmentLength, hone, hnext, hend, hbyte, hmark]
    rfl
  · have hmarked : Begins closer (isAlignment · = true) (mark :: (sizes width precision ++ u)) :=
      ⟨mark, _, rfl, hp.right.head, hmark⟩
    have hfill := fillLength_append f hp.left hmarked
    have hpos : 0 < f.text.length := by cases f <;> exact Nat.succ_pos _
    have hat : byteAt closer (f.text ++ mark :: (sizes width precision ++ u)) f.text.length =
        mark := by
      have := byteAt_append closer f.text (mark :: (sizes width precision ++ u)) 0
      rwa [Nat.add_zero, byteAt_cons hp.right.head] at this
    have htext : part Alignment.text (some ⟨some f, mark, hmark⟩) = f.text ++ [mark] := rfl
    rw [htext, List.append_assoc, List.singleton_append, alignmentLength, hfill,
      if_pos ⟨hpos, by rw [hat, hmark]⟩, List.length_append, List.length_singleton]

theorem optionsLength_append (o : Option Options) (hp : Passable closer (part Options.text o))
    (hu : Begins closer (· = rbrace) u) :
    optionsLength closer (part Options.text o ++ u) = (part Options.text o).length := by
  rcases o with _ | ⟨alignment, width, precision⟩
  · change optionsLength closer u = 0
    rw [optionsLength, hu.byteAt]
    rfl
  · have hs : Passable closer (sizes width precision) := hp.tail.right
    have hcolon : byteAt closer (colon :: (part Alignment.text alignment ++
        (sizes width precision ++ u))) 0 = colon := byteAt_cons hp.head _
    have halign := alignmentLength_append alignment hp.tail.left hs hu
    have hsizes : sizes width precision ++ u = width.1 ++ (part precisionText precision ++ u) :=
      List.append_assoc ..
    have hwidth : lengthOf closer isDigit (sizes width precision ++ u) = width.1.length := by
      rw [hsizes]
      refine lengthOf_append width.2 hs.left ?_
      exact (begins_precision precision hs.right hu).mono fun _ => not_isDigit_of_end
    have hprecision := precisionLength_append precision hs.right hu
    have htext : part Options.text (some ⟨alignment, width, precision⟩) ++ u =
        colon :: (part Alignment.text alignment ++ (sizes width precision ++ u)) := by
      simp [part, Options.text]
    have hdrop : ∀ (w v : Text), (colon :: (w ++ v)).drop (1 + w.length) = v := by
      intro w v
      rw [Nat.add_comm, List.drop_succ_cons, List.drop_left]
    have hdrop' : (colon :: (part Alignment.text alignment ++ (sizes width precision ++ u))).drop
        (1 + (part Alignment.text alignment).length + width.1.length) =
        part precisionText precision ++ u := by
      rw [← List.drop_drop, hdrop, hsizes, List.drop_left]
    rw [htext, optionsLength, if_pos hcolon, List.drop_one, List.tail_cons, halign]
    simp only [hdrop, hwidth, hdrop', hprecision]
    simp only [part, Options.text, sizes, Option.elim_some, List.length_cons, List.length_append]
    omega

/-! ### Reading the specifier and the argument -/

theorem specifierLength_append (s : Option Specifier)
    (hp : Passable closer (part Specifier.text s))
    (hu : Begins closer (fun b => b = colon ∨ b = rbrace) u) :
    specifierLength closer (part Specifier.text s ++ u) = (part Specifier.text s).length := by
  have hend : byteAt closer u 0 ≠ lowerA ∧ byteAt closer u 0 ≠ lowerN ∧
      byteAt closer u 0 ∉ specifiers := by
    rcases hu.byteAt with h | h <;> rw [h] <;> decide
  rcases s with _ | ⟨b, hb⟩ | _
  · change specifierLength closer u = 0
    rw [specifierLength, if_neg fun h => hend.1 h.1, if_neg hend.2.2]
  · have hbyte : byteAt closer (b :: u) 0 = b := byteAt_cons hp.head u
    have hnext : byteAt closer (b :: u) 1 = byteAt closer u 0 := byteAt_append closer [b] u 0
    change specifierLength closer (b :: u) = 1
    rw [specifierLength, if_neg, if_pos (hbyte.symm ▸ hb)]
    rintro ⟨-, h, -⟩
    exact hend.2.1 (hnext ▸ h)
  · have h₀ : byteAt closer (lowerA :: lowerN :: lowerY :: u) 0 = lowerA := byteAt_cons hp.head _
    have h₁ : byteAt closer (lowerA :: lowerN :: lowerY :: u) 1 = lowerN :=
      (byteAt_append closer [lowerA] _ 0).trans (byteAt_cons hp.tail.head _)
    have h₂ : byteAt closer (lowerA :: lowerN :: lowerY :: u) 2 = lowerY :=
      (byteAt_append closer [lowerA, lowerN] _ 0).trans (byteAt_cons hp.tail.tail.head _)
    change specifierLength closer (lowerA :: lowerN :: lowerY :: u) = 3
    rw [specifierLength, if_pos ⟨h₀, h₁, h₂⟩]

/-- No byte that may stand behind an argument belongs to one. -/
theorem not_isDigit_of_specifier (h : b ∈ specifiers ∨ b = colon ∨ b = rbrace) :
    isDigit b = false ∧ b ≠ lbracket := by
  have hspecifiers : ∀ b ∈ specifiers, isDigit b = false ∧ b ≠ lbracket := by decide +kernel
  rcases h with h | rfl | rfl
  · exact hspecifiers b h
  · decide
  · decide

theorem argumentLength?_append (a : Option Argument) (hp : Passable closer (part Argument.text a))
    (hu : Begins closer (fun b => b ∈ specifiers ∨ b = colon ∨ b = rbrace) u) :
    argumentLength? closer (part Argument.text a ++ u) =
      some (part Argument.text a).length := by
  have hdigit : Begins closer (isDigit · = false) u :=
    hu.mono fun _ h => (not_isDigit_of_specifier h).1
  rcases a with _ | ⟨b, w, hw⟩ | ⟨b, w, hb, hw⟩
  · have hnone : lengthOf closer isDigit u = 0 := lengthOf_append (w := []) nofun nofun hdigit
    change argumentLength? closer u = some 0
    rw [argumentLength?, if_neg (not_isDigit_of_specifier hu.byteAt).2, hnone]
  · have hbyte : byteAt closer (b :: (w ++ u)) 0 = b := byteAt_cons hp.head _
    have hne : b ≠ lbracket := by
      rintro rfl
      exact absurd (hw _ List.mem_cons_self) (by decide)
    change argumentLength? closer (b :: w ++ u) = some (b :: w).length
    rw [argumentLength?, if_neg (by exact hbyte.symm ▸ hne), lengthOf_append hw hp hdigit]
  · have hopen : byteAt closer (lbracket :: (b :: w ++ rbracket :: u)) 0 = lbracket :=
      byteAt_cons hp.head _
    have hclose : Passable closer (b :: w ++ [rbracket]) := hp.tail
    have hname : lengthOf closer isNameByte (b :: w ++ rbracket :: u) = (b :: w).length := by
      refine lengthOf_append (fun a ha => ?_) hclose.left ⟨_, _, rfl, hclose.right.head, rfl⟩
      rcases List.mem_cons.1 ha with rfl | ha
      · rw [isNameByte, hb, Bool.true_or]
      · exact hw a ha
    have hfirst : byteAt closer (lbracket :: (b :: w ++ rbracket :: u)) 1 = b :=
      (byteAt_append closer [lbracket] _ 0).trans (byteAt_cons hclose.head _)
    have hlast : byteAt closer (lbracket :: (b :: w ++ rbracket :: u)) ((b :: w).length + 1) =
        rbracket := by
      have := byteAt_append closer (lbracket :: b :: w) (rbracket :: u) 0
      rw [byteAt_cons hclose.right.head] at this
      exact this
    have htext : part Argument.text (some (.name b w hb hw)) ++ u =
        lbracket :: (b :: w ++ rbracket :: u) := by
      simp [part, Argument.text]
    rw [htext, argumentLength?, if_pos hopen, List.drop_one, List.tail_cons]
    simp only [hname]
    rw [if_pos ⟨by rw [hfirst, hb], hlast⟩]
    simp [part, Argument.text]

/-! ### Reading a whole placeholder -/

/-- **What is derived is read.** -/
theorem read_append (d : Derivation) (hp : Passable closer d.text.tail) (r : Text) :
    read closer (d.text ++ r) = some d.placeholder := by
  obtain ⟨argument, specifier, options⟩ := d
  have hinner : Passable closer (Derivation.inner ⟨argument, specifier, options⟩) := hp.left
  have hu : Begins closer (· = rbrace) (rbrace :: r) := begins_rbrace hp.right.head r
  have hoptions := begins_options options hinner.right.right hu
  have hspecifier := begins_specifier specifier hinner.right.left hoptions
  have hal := argumentLength?_append argument hinner.left hspecifier
  have hsl := specifierLength_append specifier hinner.right.left hoptions
  have hol := optionsLength_append options hinner.right.right hu
  have htext : Derivation.text ⟨argument, specifier, options⟩ ++ r =
      lbrace :: (part Argument.text argument ++ (part Specifier.text specifier ++
        (part Options.text options ++ rbrace :: r))) := by
    simp [Derivation.text, Derivation.inner]
  have hdrop : (part Argument.text argument ++ (part Specifier.text specifier ++
      (part Options.text options ++ rbrace :: r))).drop
      ((part Argument.text argument).length + (part Specifier.text specifier).length) =
      part Options.text options ++ rbrace :: r := by
    rw [← List.drop_drop, List.drop_left, List.drop_left]
  have hclose : byteAt closer (part Options.text options ++ rbrace :: r)
      (part Options.text options).length = rbrace := by
    have := byteAt_append closer (part Options.text options) (rbrace :: r) 0
    rwa [Nat.add_zero, hu.byteAt] at this
  have hafter : ¬(0 < (part Specifier.text specifier).length ∧
      byteAt closer (part Options.text options ++ rbrace :: r) 0 ≠ colon ∧
      byteAt closer (part Options.text options ++ rbrace :: r) 0 ≠ rbrace) := by
    rintro ⟨-, hcolon, hrbrace⟩
    exact hoptions.byteAt.elim hcolon hrbrace
  rw [htext, read, if_pos rfl, hal]
  simp only [Option.bind_eq_bind, Option.bind_some, List.drop_left, hsl, hdrop, hol]
  rw [if_neg hafter, if_pos hclose]
  simp only [Derivation.placeholder, Derivation.text, Derivation.inner, List.length_cons,
    List.length_append, List.length_nil]
  congr 2 <;> omega

end Highlight.Placeholder
