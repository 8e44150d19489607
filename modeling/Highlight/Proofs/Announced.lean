import Highlight.Word.Class
import Mathlib.Data.List.DropRight
import Mathlib.Tactic.SplitIfs

/-!
Names in a row. What a keyword announces is meant for the next name, and a name before a point is
only the beginning of one: it hands the announcement on, and any other name uses it up. So what is
announced behind a row of names is what its last keyword said, if every name since then stood
before a point, and nothing otherwise.
-/

namespace Highlight

open Byte

/-- The word is in none of the four sets. -/
structure WordSets.Lacks (sets : WordSets) (w : Text) : Prop where
  keywords : sets.keywords.contains w = false
  classes : sets.classes.contains w = false
  traits : sets.traits.contains w = false
  types : sets.types.contains w = false

namespace Occurrence

variable (sets : WordSets) (announcedBy : Text → Announced)

/-- The name is a keyword. -/
def isKeyword (n : Occurrence) : Bool := sets.keywords.contains n.word

/-- What the names of a row stand for, each judged by what the names before it left announced, and
what the last one leaves. -/
def classifyAll : List Occurrence → Announced → List WordClass × Announced
  | [], announced => ([], announced)
  | n :: ns, announced =>
    let (kind, left) := n.classify sets announcedBy announced
    let (kinds, last) := classifyAll ns left
    (kind :: kinds, last)

/-! ### One name -/

variable {sets announcedBy} {n : Occurrence} {announced : Announced}

theorem known?_eq_none (h : sets.Lacks n.word) : n.known? sets = none := by
  simp [known?, h.classes, h.traits, h.types]

theorem lacks_of_known?_eq_none (hk : sets.keywords.contains n.word = false)
    (h : n.known? sets = none) : sets.Lacks n.word := by
  unfold known? at h
  split_ifs at h with hc ht hy
  exact ⟨hk, Bool.eq_false_iff.2 hc, Bool.eq_false_iff.2 ht, Bool.eq_false_iff.2 hy⟩

/-- A keyword announces anew, a name before a point hands on what was announced, and any other name
uses it up. -/
theorem classify_left (sets : WordSets) (announcedBy : Text → Announced) (n : Occurrence)
    (announced : Announced) :
    (n.classify sets announcedBy announced).2 =
      if n.isKeyword sets then n.announces announcedBy
      else if n.next = dot then announced else .nothing := by
  unfold classify isKeyword
  by_cases hk : sets.keywords.contains n.word = true
  · rw [if_pos hk, if_pos hk]
  · rw [if_neg hk, if_neg hk]
    cases n.known? sets with
    | some kind => rfl
    | none => by_cases hd : n.next = dot <;> simp [hd]

/-- A name that no set has and no point follows stands for what was announced, or else for what its
neighbours make of it. -/
theorem classify_of_lacks (h : sets.Lacks n.word) (hd : n.next ≠ dot) :
    (n.classify sets announcedBy announced).1 =
      announced.wordClass?.getD (n.ofNeighbours announced) := by
  unfold classify
  rw [if_neg (by rw [h.keywords]; exact Bool.false_ne_true), known?_eq_none h]
  simp only [if_neg hd]

/-- What a name may stand for: a keyword and a name that another set has are known, and of any other
one its neighbours and what was announced are asked. -/
theorem classify_cases (sets : WordSets) (announcedBy : Text → Announced) (n : Occurrence)
    (announced : Announced) :
    let kind := (n.classify sets announcedBy announced).1
    n.isKeyword sets = true ∧ kind = .keyword ∨
      n.isKeyword sets = false ∧ n.known? sets = some kind ∨
      sets.Lacks n.word ∧ (kind = .identifier ∨ announced.wordClass? = some kind ∨
        kind = n.ofNeighbours announced) := by
  intro kind
  by_cases hk : sets.keywords.contains n.word = true
  · exact .inl ⟨hk, by simp only [kind, classify, if_pos hk]⟩
  · have hk' : sets.keywords.contains n.word = false := Bool.eq_false_iff.2 hk
    refine .inr ?_
    cases hknown : n.known? sets with
    | some k => exact .inl ⟨hk', by simp only [kind, classify, if_neg hk, hknown]⟩
    | none =>
      have hlacks := lacks_of_known?_eq_none hk' hknown
      refine .inr ⟨hlacks, ?_⟩
      by_cases hd : n.next = dot
      · exact .inl (by simp only [kind, classify, if_neg hk, hknown, if_pos hd])
      · have hkind : kind = _ := classify_of_lacks hlacks hd
        rw [hkind]
        cases announced.wordClass? with
        | some k => exact .inr (.inl rfl)
        | none => exact .inr (.inr rfl)

/-! ### A row of names -/

theorem classifyAll_append (ns ms : List Occurrence) (announced : Announced) :
    classifyAll sets announcedBy (ns ++ ms) announced =
      ((classifyAll sets announcedBy ns announced).1 ++
          (classifyAll sets announcedBy ms (classifyAll sets announcedBy ns announced).2).1,
        (classifyAll sets announcedBy ms (classifyAll sets announcedBy ns announced).2).2) := by
  induction ns generalizing announced with
  | nil => rfl
  | cons n ns ih => simp only [List.cons_append, classifyAll, ih]

/-- A name of the row is judged by what the names before it left announced. -/
theorem classifyAll_getElem? {ns : List Occurrence} {i : Nat} (h : ns[i]? = some n) :
    (classifyAll sets announcedBy ns announced).1[i]? =
      some (n.classify sets announcedBy
        (classifyAll sets announcedBy (ns.take i) announced).2).1 := by
  induction ns generalizing i announced with
  | nil => simp at h
  | cons m ns ih =>
    cases i with
    | zero =>
      obtain rfl : m = n := by simpa using h
      rfl
    | succ i => simpa only [classifyAll, List.getElem?_cons_succ, List.take_succ_cons] using ih h

/-- What is announced behind a row of names, told from its last keyword. -/
theorem classifyAll_left (ns : List Occurrence) (initial : Announced) :
    (classifyAll sets announcedBy ns initial).2 =
      if ∀ n ∈ ns.rtakeWhile (!isKeyword sets ·), n.next = dot then
        match ns.reverse.find? (isKeyword sets) with
        | some k => k.announces announcedBy
        | none => initial
      else .nothing := by
  -- the row grows at its end, where the last name says what becomes of the announcement
  induction ns using List.reverseRecOn with
  | nil => simp [classifyAll]
  | append_singleton ns n ih =>
    rw [classifyAll_append]
    simp only [classifyAll, classify_left, ih, List.rtakeWhile_concat, List.reverse_append,
      List.reverse_singleton, List.singleton_append, List.find?_cons]
    cases hk : n.isKeyword sets with
    | true => simp
    | false =>
      by_cases hd : n.next = dot
      · simp [hd, or_imp, forall_and]
      · simp [hd, or_imp, forall_and]

/-- **An announcement follows the last keyword through qualified names.** Behind a row of names is
announced what its last keyword announces, or what was announced before if the row has no keyword,
as long as every name after it stands before a point; and a name that no set has and no point
follows is what the names before it left declared, or a function before a parenthesis, or an
ordinary name. -/
theorem classifyAll_follows_keyword (sets : WordSets) (announcedBy : Text → Announced)
    (initial : Announced) (ns : List Occurrence) :
    ((classifyAll sets announcedBy ns initial).2 =
      if ∀ n ∈ ns.rtakeWhile (!isKeyword sets ·), n.next = dot then
        match ns.reverse.find? (isKeyword sets) with
        | some k =>
          if (announcedBy k.word).isDeclaration = true ∧ isNameStart k.nextVisible = false then
            .nothing
          else announcedBy k.word
        | none => initial
      else .nothing) ∧
    ∀ i n, ns[i]? = some n → sets.Lacks n.word → n.next ≠ dot →
      (classifyAll sets announcedBy ns initial).1[i]? = some
        (let announced := (classifyAll sets announcedBy (ns.take i) initial).2
        match announced.wordClass? with
        | some kind => kind
        | none =>
          if n.nextVisible = lparen then
            if announced ≠ .value ∧ (isNameByte n.before = true ∨ n.before = rbracket) then
              .functionDefinition
            else .function
          else .identifier) := by
  constructor
  · rw [classifyAll_left]
    cases ns.reverse.find? (isKeyword sets) with
    | none => rfl
    | some k => simp [announces]
  · intro i n hi hn hd
    rw [classifyAll_getElem? hi, classify_of_lacks hn hd]
    cases (classifyAll sets announcedBy (ns.take i) initial).2 <;> rfl

/-- In `def a.b` the announcement passes `a` by, and `b` is the name of the function. -/
theorem classifyAll_follows_keyword_qualified :
    let sets : WordSets := { keywords := ⟨[[0x64, 0x65, 0x66]]⟩ }
    let announcedBy (w : Text) : Announced :=
      if w = [0x64, 0x65, 0x66] then .functionName else .nothing
    let row : List Occurrence :=
      [⟨[0x64, 0x65, 0x66], space, 0x61, 0⟩, ⟨[0x61], dot, dot, 0x66⟩, ⟨[0x62], newline, 0, dot⟩]
    sets.Lacks [0x62] ∧ newline ≠ dot ∧
      (classifyAll sets announcedBy (row.take 2) .nothing).2 = .functionName ∧
      (classifyAll sets announcedBy row .nothing).1[2]? = some .functionDefinition := by
  intro sets announcedBy row
  have lacks : sets.Lacks [0x62] := ⟨by decide, by decide, by decide, by decide⟩
  refine ⟨lacks, by decide, ?_, ?_⟩
  · exact (classifyAll_follows_keyword sets announcedBy .nothing (row.take 2)).1.trans (by decide)
  · exact ((classifyAll_follows_keyword sets announcedBy .nothing row).2 2 ⟨[0x62], newline, 0, dot⟩
      rfl lacks (by decide)).trans (by decide)

end Occurrence

end Highlight
