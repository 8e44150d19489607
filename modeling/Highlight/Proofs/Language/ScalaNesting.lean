import Highlight.Proofs.Language.ScalaPlaces

/-!
Strings in holes of strings. In braces stand words, strings and further braces, and in strings
further holes, to any depth. As long as the states to return to are all held, every closing brace
returns to where its own brace was opened (`Segments.comes`), so a string is scanned to its end
wherever it stands (`unwinds`).
-/

namespace Highlight.Scala

open Byte (dollar lbrace quote rbrace space)

/-! ### Strings -/

mutual

/-- What stands between the quotes of a string. -/
inductive Segments where
  | none
  | literal (b : Byte) (plain : isPlainInString b = true) (rest : Segments)
  | hole (items : Items) (rest : Segments)

/-- What stands in braces. -/
inductive Items where
  | none
  | item (first : Item) (rest : Items)

/-- A word, a string, or a group in braces. -/
inductive Item where
  | word (w : Word)
  | string (segments : Segments)
  | group (items : Items)

end

/-- The space before the next items, if there are any. -/
def Items.gap : Items → Text
  | .none => []
  | .item .. => [space]

mutual

def Segments.text : Segments → Text
  | .none => []
  | .literal b _ rest => b :: rest.text
  | .hole items rest => dollar :: lbrace :: (items.text ++ rbrace :: rest.text)

def Items.text : Items → Text
  | .none => []
  | .item first rest => first.text ++ (rest.gap ++ rest.text)

def Item.text : Item → Text
  | .word w => w.letters
  | .string segments => quote :: (segments.text ++ [quote])
  | .group items => lbrace :: (items.text ++ [rbrace])

end

mutual

/-- How deep the braces are nested. -/
def Segments.depth : Segments → Nat
  | .none => 0
  | .literal _ _ rest => rest.depth
  | .hole items rest => max (items.depth + 1) rest.depth

def Items.depth : Items → Nat
  | .none => 0
  | .item first rest => max first.depth rest.depth

def Item.depth : Item → Nat
  | .word _ => 0
  | .string segments => segments.depth
  | .group items => items.depth + 1

end

mutual

/-- The categories of the bytes: strings with their quotes are interpolated, and the braces with
their dollar sign are punctuation. The others are left open. -/
def Segments.marks : Segments → List (Option Category)
  | .none => []
  | .literal _ _ rest => some .interpolated :: rest.marks
  | .hole items rest =>
    some .punctuation :: some .punctuation :: (items.marks ++ some .punctuation :: rest.marks)

def Items.marks : Items → List (Option Category)
  | .none => []
  | .item first rest => first.marks ++ (List.replicate rest.gap.length .none ++ rest.marks)

def Item.marks : Item → List (Option Category)
  | .word w => List.replicate w.letters.length .none
  | .string segments => some .interpolated :: (segments.marks ++ [some .interpolated])
  | .group items => some .punctuation :: (items.marks ++ [some .punctuation])

end

/-! ### On the way through a string -/

variable {config : Config} {text u : Text} {b : Byte} {marks : List (Option Category)}
  {R : ReturnStack Category} {e : Nat}

/-- Behind the quote that opens a string no two quotes follow, unless one follows the string. -/
theorem Segments.text_append_ne (t : Segments) (hu : ∀ v, u ≠ quote :: v) (v : Text) :
    t.text ++ quote :: u ≠ quote :: quote :: v := by
  intro h
  cases t with
  | none => exact hu v (List.cons.inj h).2
  | literal a plain rest =>
    obtain ⟨rfl, -⟩ := List.cons.inj h
    cases plain
  | hole items rest => cases (List.cons.inj h).1

mutual

/-- **A string is scanned through,** and the regions are at its end what they were before. -/
theorem Segments.comes (t : Segments) {marks : List (Option Category)} {u : Text}
    {R : ReturnStack Category} (hc : config.interpolation = .always) (hpeak : R.depth ≤ R.peak)
    (hcap : R.depth + t.depth ≤ R.cap)
    (h : Comes config text ⟨.inside .interpolated, marks, t.text ++ u, R, e⟩) :
    Comes config text
      ⟨.inside .interpolated, marks ++ t.marks, u, R.raise (R.depth + t.depth), e⟩ := by
  cases t with
  | none =>
    rw [Segments.depth, Nat.add_zero, ReturnStack.raise_of_le hpeak, Segments.marks,
      List.append_nil]
    exact h
  | literal b plain rest =>
    have hrest := rest.comes hc hpeak hcap (h.literal plain)
    rwa [List.append_assoc] at hrest
  | hole items rest =>
    simp only [Segments.depth] at hcap
    simp only [Segments.text, List.cons_append, List.append_assoc] at h
    have hitemsCap : R.depth + 1 + items.depth ≤ R.cap := by omega
    have hrestCap : R.depth + rest.depth ≤ R.cap := by omega
    have hitems := items.comes hc (Nat.succ_pos _) (Nat.le_max_right _ _) hitemsCap h.opensHole
    have hclosed := hitems.closesRegion (Nat.succ_pos _) (ReturnStack.pop?_push (by omega) _)
    have hrest := rest.comes hc (ReturnStack.depth_le_peak_raise hpeak _) hrestCap hclosed
    have hdepth : max (max (R.depth + 1) ((R.push .interpolated).depth + items.depth))
        (R.depth + rest.depth) = R.depth + max (items.depth + 1) rest.depth := by
      simp only [ReturnStack.depth_push]
      omega
    rw [ReturnStack.raise_raise, ReturnStack.depth_raise, hdepth] at hrest
    simpa [Segments.marks, Segments.depth] using hrest

/-- What stands in braces is scanned through. -/
theorem Items.comes (t : Items) {marks : List (Option Category)} {u : Text}
    {R : ReturnStack Category} (hc : config.interpolation = .always) (hpos : 0 < R.depth)
    (hpeak : R.depth ≤ R.peak) (hcap : R.depth + t.depth ≤ R.cap)
    (h : Comes config text ⟨.code, marks, t.text ++ rbrace :: u, R, e⟩) :
    Comes config text ⟨.code, marks ++ t.marks, rbrace :: u, R.raise (R.depth + t.depth), e⟩ := by
  cases t with
  | none =>
    rw [Items.depth, Nat.add_zero, ReturnStack.raise_of_le hpeak, Items.marks, List.append_nil]
    exact h
  | item first rest =>
    simp only [Items.depth] at hcap
    simp only [Items.text, List.append_assoc] at h
    obtain ⟨b, v, hv, hname, hquote⟩ : ∃ b v, rest.gap ++ (rest.text ++ rbrace :: u) = b :: v ∧
        isNameByte b = false ∧ b ≠ quote := by
      cases rest with
      | none => exact ⟨rbrace, u, rfl, by decide, by decide⟩
      | item second rest => exact ⟨space, _, rfl, by decide, by decide⟩
    rw [hv] at h
    have hfirst := first.comes hc hname hquote hpos hpeak (by omega) h
    rw [← hv] at hfirst
    have hgap : Comes config text ⟨.code, (marks ++ first.marks) ++
        List.replicate rest.gap.length none, rest.text ++ rbrace :: u,
        R.raise (R.depth + first.depth), e⟩ := by
      cases rest with
      | none => simpa [Items.gap] using hfirst
      | item second rest => exact hfirst.space
    have hrestCap : R.depth + rest.depth ≤ R.cap := by omega
    have hrest := rest.comes (R := R.raise (R.depth + first.depth)) hc hpos
      (ReturnStack.depth_le_peak_raise hpeak _) hrestCap hgap
    have hdepth : max (R.depth + first.depth) (R.depth + rest.depth) =
        R.depth + max first.depth rest.depth := by omega
    rw [ReturnStack.raise_raise, ReturnStack.depth_raise, hdepth] at hrest
    simpa [Items.marks, Items.depth] using hrest

/-- An item is scanned through. -/
theorem Item.comes (t : Item) {marks : List (Option Category)} {u : Text}
    {R : ReturnStack Category} {b : Byte} (hc : config.interpolation = .always)
    (hname : isNameByte b = false) (hquote : b ≠ quote) (hpos : 0 < R.depth)
    (hpeak : R.depth ≤ R.peak) (hcap : R.depth + t.depth ≤ R.cap)
    (h : Comes config text ⟨.code, marks, t.text ++ b :: u, R, e⟩) :
    Comes config text ⟨.code, marks ++ t.marks, b :: u, R.raise (R.depth + t.depth), e⟩ := by
  cases t with
  | word w =>
    rw [Item.depth, Nat.add_zero, ReturnStack.raise_of_le hpeak]
    exact h.word w hname
  | string segments =>
    simp only [Item.text, List.cons_append, List.append_assoc, List.nil_append] at h
    have hopen := h.opensString hc
      (segments.text_append_ne fun v hv => hquote (List.cons.inj hv).1)
    have hclosed := (segments.comes hc hpeak hcap hopen).closesString
    simpa [Item.marks, Item.depth] using hclosed
  | group items =>
    simp only [Item.depth] at hcap
    simp only [Item.text, List.cons_append, List.append_assoc, List.nil_append] at h
    have hitemsCap : R.depth + 1 + items.depth ≤ R.cap := by omega
    have hitems := items.comes hc (Nat.succ_pos _) (Nat.le_max_right _ _) hitemsCap
      (h.opensBrace hpos)
    have hclosed : Comes config text ⟨.code, _, b :: u, _, e⟩ :=
      hitems.closesRegion (Nat.succ_pos _) (ReturnStack.pop?_push (by omega) _)
    have hdepth : max (R.depth + 1) ((R.push .plain).depth + items.depth) =
        R.depth + (items.depth + 1) := by
      simp only [ReturnStack.depth_push]
      omega
    rw [hdepth] at hclosed
    simpa [Item.marks, Item.depth] using hclosed

end

/-! ### Whole texts -/

/-- **Nested holes unwind.** If every string is interpolated and the states to return to are all
held, the scan of a string ends in program text with no region open, after regions as deep as its
braces. All its quotes and literal bytes are interpolated, and all braces are punctuation. -/
theorem unwinds (config : Config) (hc : config.interpolation = .always) (t : Segments)
    (hcap : t.depth ≤ config.stackCap) (s : Session Category) :
    let answer := s.highlight (grammar config) (quote :: (t.text ++ [quote]))
    (∃ found, answer.2 = .ok found ∧ found.endState = .plain ∧ found.nesting = ⟨0, t.depth⟩) ∧
      Fits (some .interpolated :: (t.marks ++ [some .interpolated])) answer.1.styles.toList := by
  intro answer
  have hopen : Comes config (quote :: (t.text ++ [quote]))
      ⟨.inside .interpolated, [some .interpolated], t.text ++ [quote],
        .empty config.stackCap, 0⟩ := by
    have hrule : enter config (Cursor.outset (quote :: (t.text ++ [quote]))) (.initial config) =
        .pass ((Cursor.outset (quote :: (t.text ++ [quote]))).switch .interpolated)
          (.initial config) :=
      enter_quote rfl (by rw [startsInterpolated, hc])
        (readsNext_of_ahead rfl (t.text_append_ne nofun))
    exact ⟨_, _, visits_second (by decide) (by decide) hrule, holds_second (by decide) (fun _ => id)
      (fun a ha => ⟨Option.some.inj ha, Stance.inside_ne_name _⟩) rfl rfl rfl⟩
  have hthrough := t.comes hc (Nat.le_refl _)
    (show 0 + t.depth ≤ max config.stackCap 1 by omega) hopen
  have hunended : Text.unended (quote :: (t.text ++ [quote])) = true :=
    Text.unended_concat (quote :: t.text) (by decide)
  obtain ⟨⟨found, hfound, hend, hnesting⟩, hfits, -⟩ := hthrough.closesString.finds hunended s
  refine ⟨⟨found, hfound, hend, hnesting.trans ?_⟩, hfits⟩
  simp [ReturnStack.empty]

/-- A string in a group in a hole, with room for just these two regions. -/
theorem unwinds_twice :
    let config : Config := { words := {}, interpolation := .always, stackCap := 2 }
    let inner : Item := .string (.literal Byte.lowerE (by decide) .none)
    let word : Item := .word ⟨[Byte.lowerA], nofun, List.forall_mem_singleton.2 rfl⟩
    let t : Segments := .hole (.item word (.item (.group (.item inner .none)) .none)) .none
    let answer := Session.highlight (grammar config) {} (quote :: (t.text ++ [quote]))
    quote :: (t.text ++ [quote]) = Text.ofString "\"$\x7ba \x7b\"e\"\x7d\x7d\"" ∧
      config.interpolation = .always ∧ t.depth ≤ config.stackCap ∧
      ∃ found, answer.2 = .ok found ∧ found.endState = .plain ∧ found.nesting = ⟨0, 2⟩ := by
  intro config inner word t answer
  have htext : quote :: (t.text ++ [quote]) =
      Text.ofString "\"$\x7ba \x7b\"e\"\x7d\x7d\"" := by decide +kernel
  obtain ⟨hfound, -⟩ := unwinds config rfl t (by decide) {}
  exact ⟨htext, rfl, by decide, hfound⟩

end Highlight.Scala
