import Highlight.Proofs.Language.PlaceholderForm

/-!
Placeholders are read by their grammar: one is found at the beginning of a text just if the text
begins with one that is derived, and what is found is read off the derivation. There is only one
derivation, and nothing behind it counts, nor behind the first byte that no placeholder goes over.
-/

namespace Highlight.Placeholder

open Byte

variable {closer : Option Byte} {t t' u u' : Text} {n : Nat}

/-! ### What is read is derived -/

theorem exists_argument (h : argumentLength? closer t = some n) :
    ∃ a u, t = part Argument.text a ++ u ∧ n = (part Argument.text a).length ∧
      Passable closer (part Argument.text a) := by
  unfold argumentLength? at h
  simp only at h
  split_ifs at h with hopen hname
  · obtain ⟨t, rfl, hlb⟩ := cons_of_byteAt hopen (by decide)
    obtain ⟨w, u, rfl, hlen, hkind, hpass⟩ := exists_of_lengthOf closer isNameByte t
    simp only [List.drop_one, List.tail_cons, hlen] at h hname
    obtain ⟨hstart, hclose⟩ := hname
    cases w with
    | nil =>
      -- the byte behind the bracket begins no name
      have hb : byteAt closer (lbracket :: u) 1 = rbracket := hclose
      rw [List.nil_append, hb] at hstart
      exact absurd hstart (by decide)
    | cons b w =>
      have hbyte : byteAt closer (lbracket :: (b :: w ++ u)) 1 = b :=
        (byteAt_append closer [lbracket] _ 0).trans (byteAt_cons hpass.head _)
      have hend : byteAt closer u 0 = rbracket := by
        have := byteAt_append closer (lbracket :: b :: w) u 0
        exact this.symm.trans hclose
      obtain ⟨u, rfl, hrb⟩ := cons_of_byteAt hend (by decide)
      rw [hbyte] at hstart
      refine ⟨some (.name b w hstart fun a ha => hkind a (List.mem_cons_of_mem b ha)), u, ?_, ?_,
        ?_⟩
      · simp [part, Argument.text]
      · rw [← Option.some.inj h]
        simp [part, Argument.text]
      · intro a ha
        rcases List.mem_cons.1 ha with rfl | ha
        · exact hlb
        · refine (Passable.append hpass (u := [rbracket]) ?_) a ha
          intro c hc
          rw [List.mem_singleton.1 hc]
          exact hrb
  · obtain ⟨w, u, rfl, hlen, hkind, hpass⟩ := exists_of_lengthOf closer isDigit t
    rw [hlen] at h
    cases w with
    | nil => exact ⟨none, u, rfl, (Option.some.inj h).symm, .nil⟩
    | cons b w => exact ⟨some (.number b w hkind), u, rfl, (Option.some.inj h).symm, hpass⟩

theorem exists_specifier (closer : Option Byte) (t : Text) :
    ∃ s u, t = part Specifier.text s ++ u ∧
      specifierLength closer t = (part Specifier.text s).length ∧
      Passable closer (part Specifier.text s) := by
  unfold specifierLength
  split_ifs with hany hletter
  · obtain ⟨ha, hn, hy⟩ := hany
    obtain ⟨t, rfl, hpa⟩ := cons_of_byteAt ha (by decide)
    have hn' : byteAt closer t 0 = lowerN := (byteAt_append closer [lowerA] t 0).symm.trans hn
    obtain ⟨t, rfl, hpn⟩ := cons_of_byteAt hn' (by decide)
    have hy' : byteAt closer t 0 = lowerY :=
      (byteAt_append closer [lowerA, lowerN] t 0).symm.trans hy
    obtain ⟨t, rfl, hpy⟩ := cons_of_byteAt hy' (by decide)
    refine ⟨some .any, t, rfl, rfl, ?_⟩
    intro b hb
    simp only [part, Option.elim_some, Specifier.text, List.mem_cons, List.not_mem_nil,
      or_false] at hb
    rcases hb with rfl | rfl | rfl
    · exact hpa
    · exact hpn
    · exact hpy
  · have hne : byteAt closer t 0 ≠ 0 := by
      intro h
      rw [h] at hletter
      exact absurd hletter (by decide)
    obtain ⟨u, ht, hp⟩ := cons_of_byteAt rfl hne
    refine ⟨some (.letter _ hletter), u, ht, rfl, ?_⟩
    intro b hb
    rw [List.mem_singleton.1 hb]
    exact hp
  · exact ⟨none, t, rfl, rfl, .nil⟩

theorem exists_fill (h : 0 < fillLength closer t) :
    ∃ (f : Fill) (u : Text), t = f.text ++ u ∧ fillLength closer t = f.text.length ∧
      Passable closer f.text := by
  unfold fillLength at h ⊢
  simp only at h ⊢
  by_cases hnone : byteAt closer t 0 = 0 ∨ byteAt closer t 0 = lbrace ∨ byteAt closer t 0 = rbrace
  · rw [if_pos hnone] at h
    exact absurd h (Nat.lt_irrefl 0)
  · rw [if_neg hnone]
    simp only [not_or] at hnone
    obtain ⟨t', ht, hp⟩ := cons_of_byteAt (rfl : byteAt closer t 0 = _) hnone.1
    generalize hlead : byteAt closer t 0 = lead at *
    subst ht
    obtain ⟨w, u, rfl, hlen, hkind, hpass⟩ := exists_of_lengthOf closer isContinuation t'
    have halone : Passable closer [lead] := by
      intro b hb
      rw [List.mem_singleton.1 hb]
      exact hp
    simp only [List.drop_one, List.tail_cons, hlen]
    by_cases hone : announcedLength lead = 1
    · simp only [hone, Nat.sub_self, Nat.zero_le, if_true, Nat.zero_add]
      exact ⟨.alone lead hnone, w ++ u, rfl, rfl, halone⟩
    · split_ifs with hmore
      · -- as many bytes as the first one announces belong to the character
        obtain ⟨k, hk⟩ : ∃ k, announcedLength lead - 1 = k := ⟨_, rfl⟩
        rw [hk] at hmore ⊢
        have hlength : (w.take k).length = k := by
          rw [List.length_take, Nat.min_eq_left hmore]
        have hannounces : Announces lead (w.take k).length := by
          rw [hlength, ← hk]
          exact announces_of_announcedLength hone
        refine ⟨.encoded lead (w.take k) hannounces fun b hb => hkind b (List.mem_of_mem_take hb),
          w.drop k ++ u, ?_, ?_, ?_⟩
        · simp only [Fill.text, List.cons_append, ← List.append_assoc, List.take_append_drop]
        · simp only [Fill.text, List.length_cons, hlength]
        · intro b hb
          rcases List.mem_cons.1 hb with rfl | hb
          · exact hp
          · exact hpass b (List.mem_of_mem_take hb)
      · exact ⟨.alone lead hnone, w ++ u, rfl, rfl, halone⟩

theorem exists_alignment (closer : Option Byte) (t : Text) :
    ∃ a u, t = part Alignment.text a ++ u ∧
      alignmentLength closer t = (part Alignment.text a).length ∧
      Passable closer (part Alignment.text a) := by
  unfold alignmentLength
  simp only
  split_ifs with hfilled hmark
  · obtain ⟨hpos, hmark⟩ := hfilled
    obtain ⟨f, u, rfl, hlen, hpass⟩ := exists_fill hpos
    rw [hlen] at hmark ⊢
    have hat := byteAt_append closer f.text u 0
    rw [Nat.add_zero] at hat
    rw [hat] at hmark
    obtain ⟨v, hv, hp⟩ := cons_of_byteAt rfl (ne_zero_of_isAlignment hmark)
    refine ⟨some ⟨some f, _, hmark⟩, v, ?_, ?_, ?_⟩
    · rw [congrArg (f.text ++ ·) hv]
      simp [part, Alignment.text]
    · simp [part, Alignment.text]
    · refine hpass.append fun b hb => ?_
      rw [List.mem_singleton.1 hb]
      exact hp
  · obtain ⟨u, ht, hp⟩ := cons_of_byteAt rfl (ne_zero_of_isAlignment hmark)
    refine ⟨some ⟨none, _, hmark⟩, u, ht, rfl, fun b hb => ?_⟩
    rw [List.mem_singleton.1 hb]
    exact hp
  · exact ⟨none, t, rfl, rfl, .nil⟩

theorem exists_precision (closer : Option Byte) (t : Text) :
    ∃ w u, t = part precisionText w ++ u ∧
      precisionLength closer t = (part precisionText w).length ∧
      Passable closer (part precisionText w) := by
  unfold precisionLength
  split_ifs with hdot
  · obtain ⟨t, rfl, hp⟩ := cons_of_byteAt hdot (by decide)
    obtain ⟨w, u, rfl, hlen, hkind, hpass⟩ := exists_of_lengthOf closer isDigit t
    rw [List.drop_one, List.tail_cons, hlen]
    refine ⟨some ⟨w, hkind⟩, u, rfl, rfl, fun b hb => ?_⟩
    rcases List.mem_cons.1 hb with rfl | hb
    · exact hp
    · exact hpass b hb
  · exact ⟨none, t, rfl, rfl, .nil⟩

theorem exists_options (closer : Option Byte) (t : Text) :
    ∃ o u, t = part Options.text o ++ u ∧
      optionsLength closer t = (part Options.text o).length ∧
      Passable closer (part Options.text o) := by
  unfold optionsLength
  split_ifs with hcolon
  · obtain ⟨t, rfl, hp⟩ := cons_of_byteAt hcolon (by decide)
    obtain ⟨alignment, u, rfl, halign, hpa⟩ := exists_alignment closer t
    obtain ⟨width, v, rfl, hwidth, hdigits, hpw⟩ := exists_of_lengthOf closer isDigit u
    obtain ⟨precision, r, rfl, hprecision, hpp⟩ := exists_precision closer v
    have hdrop : ∀ (w v : Text), (colon :: (w ++ v)).drop (1 + w.length) = v := by
      intro w v
      rw [Nat.add_comm, List.drop_succ_cons, List.drop_left]
    refine ⟨some ⟨alignment, ⟨width, hdigits⟩, precision⟩, r, ?_, ?_, ?_⟩
    · simp [part, Options.text, sizes]
    · simp only [List.drop_one, List.tail_cons, halign, hdrop, hwidth]
      rw [← List.drop_drop, hdrop, List.drop_left, hprecision]
      simp only [part, Options.text, sizes, Option.elim_some, List.length_cons,
        List.length_append]
      omega
    · intro b hb
      rcases List.mem_cons.1 hb with rfl | hb
      · exact hp
      · exact (hpa.append (Passable.append hpw hpp)) b hb
  · exact ⟨none, t, rfl, rfl, .nil⟩

/-- **What is read is derived.** -/
theorem exists_of_read {p : Placeholder} (h : read closer t = some p) :
    ∃ d : Derivation, d.Begins closer t ∧ d.placeholder = p := by
  cases t with
  | nil => cases h
  | cons b t =>
    simp only [read] at h
    split at h
    case isFalse => cases h
    case isTrue hb =>
      obtain ⟨n, hn, hrest⟩ := Option.bind_eq_some_iff.1 h
      obtain ⟨argument, u, rfl, rfl, hpa⟩ := exists_argument hn
      obtain ⟨specifier, v, rfl, hspec, hps⟩ := exists_specifier closer u
      obtain ⟨options, r, rfl, hopt, hpo⟩ := exists_options closer v
      simp only [← List.drop_drop, List.drop_left, hspec, hopt] at hrest
      split_ifs at hrest with hafter hclose
      have hend : byteAt closer r 0 = rbrace := (byteAt_append closer _ r 0).symm.trans hclose
      obtain ⟨r, rfl, hp⟩ := cons_of_byteAt hend (by decide)
      have htext : Derivation.text ⟨argument, specifier, options⟩ ++ r =
          b :: (part Argument.text argument ++ (part Specifier.text specifier ++
            (part Options.text options ++ rbrace :: r))) := by
        simp [Derivation.text, Derivation.inner, hb]
      have hinner : Passable closer (Derivation.inner ⟨argument, specifier, options⟩) :=
        hpa.append (hps.append hpo)
      refine ⟨⟨argument, specifier, options⟩, ⟨⟨r, htext⟩, hinner.append ?_⟩, ?_⟩
      · intro a ha
        rw [List.mem_singleton.1 ha]
        exact hp
      · rw [← Option.some.inj hrest]
        simp only [Derivation.placeholder, Derivation.text, Derivation.inner, List.length_cons,
          List.length_append, List.length_nil]
        congr 1 <;> omega

/-! ### There is one derivation -/

/-- A part is known by its text if it is not empty. -/
theorem part_injective {α : Type} {text : α → Text} (hne : ∀ a, text a ≠ [])
    (hinj : Function.Injective text) : Function.Injective (part text) := by
  rintro (_ | a) (_ | a') h
  · rfl
  · exact absurd h.symm (hne a')
  · exact absurd h (hne a)
  · exact congrArg some (hinj h)

theorem Argument.text_ne_nil : ∀ a : Argument, a.text ≠ []
  | .number .. => List.cons_ne_nil _ _
  | .name .. => List.cons_ne_nil _ _

theorem Argument.text_injective : Function.Injective Argument.text := by
  have hdigit : ∀ {b : Byte} {w v : Text}, (∀ a ∈ b :: w, isDigit a = true) →
      b :: w ≠ lbracket :: v := by
    intro b w v hw he
    have := hw lbracket ((List.cons.inj he).1 ▸ List.mem_cons_self)
    exact absurd this (by decide)
  rintro (⟨b, w, hw⟩ | ⟨b, w, hb, hw⟩) (⟨b', w', hw'⟩ | ⟨b', w', hb', hw'⟩) h
  · obtain ⟨rfl, rfl⟩ := List.cons.inj h
    rfl
  · exact absurd h (hdigit hw)
  · exact absurd h.symm (hdigit hw')
  · obtain ⟨rfl, hrest⟩ := List.cons.inj (List.cons.inj h).2
    obtain rfl := List.append_cancel_right hrest
    rfl

theorem Specifier.text_ne_nil : ∀ s : Specifier, s.text ≠ []
  | .letter .. => List.cons_ne_nil _ _
  | .any => List.cons_ne_nil _ _

theorem Specifier.text_injective : Function.Injective Specifier.text := by
  rintro (⟨b, hb⟩ | _) (⟨b', hb'⟩ | _) h
  · obtain ⟨rfl, -⟩ := List.cons.inj h
    rfl
  · cases (List.cons.inj h).2
  · cases (List.cons.inj h).2
  · rfl

theorem Fill.text_ne_nil : ∀ f : Fill, f.text ≠ []
  | .encoded .. => List.cons_ne_nil _ _
  | .alone .. => List.cons_ne_nil _ _

theorem Fill.text_injective : Function.Injective Fill.text := by
  have hmore : ∀ {lead : Byte} {more : Text}, Announces lead more.length → more ≠ [] := by
    rintro lead more h rfl
    exact absurd h.allowed.2 (Nat.lt_irrefl 0)
  rintro (⟨b, w, ha, hw⟩ | ⟨b, hb⟩) (⟨b', w', ha', hw'⟩ | ⟨b', hb'⟩) h
  · obtain ⟨rfl, rfl⟩ := List.cons.inj h
    rfl
  · exact absurd (List.cons.inj h).2 (hmore ha)
  · exact absurd (List.cons.inj h).2.symm (hmore ha')
  · obtain ⟨rfl, -⟩ := List.cons.inj h
    rfl

theorem Alignment.text_ne_nil (a : Alignment) : a.text ≠ [] :=
  List.append_ne_nil_of_right_ne_nil _ (List.cons_ne_nil _ _)

theorem Alignment.text_injective : Function.Injective Alignment.text := by
  rintro ⟨f, m, hm⟩ ⟨f', m', hm'⟩ h
  obtain ⟨hfill, hmark⟩ := List.append_inj' h rfl
  obtain rfl := part_injective Fill.text_ne_nil Fill.text_injective hfill
  obtain ⟨rfl, -⟩ := List.cons.inj hmark
  rfl

theorem precisionText_injective : Function.Injective precisionText := by
  intro w w' h
  exact Subtype.ext (List.cons.inj h).2

theorem options_eq {o o' : Option Options} (hp : Passable closer (part Options.text o))
    (hu : Begins closer (· = rbrace) u) (h : part Options.text o = part Options.text o') :
    o = o' := by
  rcases o with _ | ⟨a, w, q⟩ <;> rcases o' with _ | ⟨a', w', q'⟩
  · rfl
  · cases h
  · cases h
  · have hp' : Passable closer (part Options.text (some ⟨a', w', q'⟩)) := h ▸ hp
    have hs : Passable closer (sizes w q) := hp.tail.right
    have hs' : Passable closer (sizes w' q') := hp'.tail.right
    have hinner : part Alignment.text a ++ sizes w q = part Alignment.text a' ++ sizes w' q' :=
      (List.cons.inj h).2
    have hlength : (part Alignment.text a).length = (part Alignment.text a').length := by
      rw [← alignmentLength_append a hp.tail.left hs hu,
        ← alignmentLength_append a' hp'.tail.left hs' hu, ← List.append_assoc, hinner,
        List.append_assoc]
    obtain ⟨halign, hsizes⟩ := List.append_inj hinner hlength
    have hwidth : w.1.length = w'.1.length := by
      rw [← lengthOf_append w.2 hs.left
          ((begins_precision q hs.right hu).mono fun _ => not_isDigit_of_end),
        ← lengthOf_append w'.2 hs'.left
          ((begins_precision q' hs'.right hu).mono fun _ => not_isDigit_of_end),
        ← List.append_assoc, ← List.append_assoc]
      exact congrArg (fun v => lengthOf closer isDigit (v ++ u)) hsizes
    obtain ⟨hw, hq⟩ := List.append_inj hsizes hwidth
    obtain rfl := part_injective Alignment.text_ne_nil Alignment.text_injective halign
    obtain rfl := Subtype.ext hw
    obtain rfl := part_injective (fun _ => List.cons_ne_nil _ _) precisionText_injective hq
    rfl

/-- **A text begins with one derivation at most.** -/
theorem Derivation.Begins.unique {d d' : Derivation} (h : d.Begins closer t)
    (h' : d'.Begins closer t) : d = d' := by
  obtain ⟨r, hr⟩ := h.text
  obtain ⟨r', hr'⟩ := h'.text
  have hread : d.placeholder = d'.placeholder := by
    have := read_append d h.passable r
    rw [hr, ← hr', read_append d' h'.passable r'] at this
    exact (Option.some.inj this).symm
  obtain ⟨hlength, hstart, hstop⟩ := Placeholder.mk.inj hread
  obtain ⟨htext, -⟩ := List.append_inj (hr.trans hr'.symm) hlength
  have hinner : d.inner = d'.inner := List.append_cancel_right (List.cons.inj htext).2
  obtain ⟨hargument, hrest⟩ := List.append_inj hinner (Nat.add_left_cancel hstart)
  have hspec : (part Specifier.text d.specifier).length =
      (part Specifier.text d'.specifier).length := by omega
  obtain ⟨hspecifier, hoptions⟩ := List.append_inj hrest hspec
  have hpass : Passable closer (d.inner ++ [rbrace]) := h.passable
  have hu : Placeholder.Begins closer (· = rbrace) [rbrace] := begins_rbrace hpass.right.head []
  obtain ⟨a, s, o⟩ := d
  obtain ⟨a', s', o'⟩ := d'
  obtain rfl := part_injective Argument.text_ne_nil Argument.text_injective hargument
  obtain rfl := part_injective Specifier.text_ne_nil Specifier.text_injective hspecifier
  obtain rfl := options_eq hpass.left.right.right hu hoptions
  rfl

/-! ### What counts for a placeholder -/

/-- The bytes that count for a placeholder: the first one, and behind it those before the first
that no placeholder goes over. -/
def reach (closer : Option Byte) : Text → Text
  | [] => []
  | b :: t => b :: t.takeWhile (!stops closer ·)

/-- A text begins with the same derivations as the bytes of it that count. -/
theorem begins_reach {d : Derivation} : d.Begins closer (reach closer t) ↔ d.Begins closer t := by
  refine ⟨fun h => ⟨h.text.trans ?_, h.passable⟩, fun h => ⟨?_, h.passable⟩⟩
  · cases t with
    | nil => exact List.prefix_refl _
    | cons b t => exact (List.cons_prefix_cons.2 ⟨rfl, List.takeWhile_prefix _⟩)
  · obtain ⟨r, rfl⟩ := h.text
    have hall : ∀ b ∈ d.inner ++ [rbrace], (!stops closer b) = true := by
      intro b hb
      rw [h.passable b hb]
      rfl
    change d.text <+: lbrace :: ((d.inner ++ [rbrace]) ++ r).takeWhile (!stops closer ·)
    rw [List.takeWhile_append_of_pos hall]
    exact List.prefix_append d.text _

theorem read_iff {p : Placeholder} :
    read closer t = some p ↔ ∃ d : Derivation, d.Begins closer t ∧ d.placeholder = p := by
  refine ⟨exists_of_read, ?_⟩
  rintro ⟨d, ⟨⟨r, rfl⟩, hpass⟩, rfl⟩
  exact read_append d hpass r

/-- **A placeholder is read just where one is derived.** The derivation is unique, and of the text
only those bytes count that a placeholder may go over; if one is read, only its own bytes do. -/
theorem reads_exactly (closer : Option Byte) (t : Text) :
    (∀ p, read closer t = some p ↔ ∃ d : Derivation, d.Begins closer t ∧ d.placeholder = p) ∧
    (∀ d d' : Derivation, d.Begins closer t → d'.Begins closer t → d = d') ∧
    (∀ t', reach closer t' = reach closer t → read closer t' = read closer t) ∧
    ∀ p, read closer t = some p → ∀ t', t'.take p.length = t.take p.length →
      read closer t' = some p := by
  refine ⟨fun p => read_iff, fun d d' => Derivation.Begins.unique, ?_, ?_⟩
  · intro t' h
    refine Option.ext fun p => ?_
    rw [read_iff, read_iff]
    simp only [← begins_reach (t := t'), h, begins_reach]
  · intro p hp t' htake
    obtain ⟨d, hd, rfl⟩ := exists_of_read hp
    refine read_iff.2 ⟨d, ⟨?_, hd.passable⟩, rfl⟩
    have hbegin : d.text = t.take d.text.length := List.prefix_iff_eq_take.1 hd.text
    rw [hbegin]
    exact htake ▸ List.take_prefix _ _

/-- A name in brackets, a specifier, and a fill character of two bytes before its mark. -/
theorem reads_exactly_filled :
    let t := Text.ofString "\x7b[n]s:é^3.1\x7d, then"
    read (some quote) t = some ⟨13, 4, 5⟩ ∧
      ∃ d : Derivation, d.Begins (some quote) t ∧ d.placeholder = ⟨13, 4, 5⟩ ∧
        ∀ d' : Derivation, d'.Begins (some quote) t → d' = d := by
  intro t
  obtain ⟨hiff, hunique, -⟩ := reads_exactly (some quote) t
  have hread : read (some quote) t = some ⟨13, 4, 5⟩ := by decide +kernel
  obtain ⟨d, hd, hp⟩ := (hiff _).1 hread
  exact ⟨hread, d, hd, hp, fun d' hd' => hunique d' d hd' hd⟩

end Highlight.Placeholder
