import LayeredConfig.Proofs.Placeholder.Rendering
import Mathlib.Data.List.TakeWhile
import Mathlib.Data.String.Basic

/-!
# Which placeholders are found in a text

A placeholder stands in a text (`Occurrence.StandsIn`) where the text between two character
boundaries is its expression. Several can stand in one text and overlap, since one per cent sign may
close a placeholder and open another. `Placeholder.occurrences` finds those that a search from left
to right finds, each search going on behind the last one found: `occurrences_exact` says that what
is found stands in the text, in order and apart, and that whatever else stands there begins at the
closing sign of one that is found.

It rests on two facts. Reading a placeholder at the start of a text accepts exactly the expressions
of proper placeholders (`read?_eq_some_iff`). And an expression holds no per cent sign but the two
at its ends (`eq_nil_or_eq_nil_of_expression_eq`), so that a placeholder that begins inside of
another can only begin at its end.

Offsets count bytes, as `String.Pos.Raw` does. `splice` cuts a text at the offsets that were found
and puts other texts in the place of the placeholders, which may take a computation each. With the
expressions of the placeholders it gives the text back.
-/

namespace LayeredConfig

namespace Text

/-- The text between two bytes. -/
def slice (s : String) (start stop : Nat) : String :=
  String.Pos.Raw.extract s ⟨start⟩ ⟨stop⟩

theorem slice_append (before middle after : String) :
    slice (before ++ middle ++ after) before.utf8ByteSize
      (before.utf8ByteSize + middle.utf8ByteSize) = middle := by
  have h := String.extract_of_valid before.toList middle.toList after.toList
  simpa [slice, String.utf8Len_toList, String.append_assoc] using h

/-- Two boundaries between characters cut a text in three. -/
theorem exists_append_of_isValid {s : String} {start stop : Nat}
    (hstart : String.Pos.Raw.IsValid s ⟨start⟩) (hstop : String.Pos.Raw.IsValid s ⟨stop⟩)
    (hle : start ≤ stop) :
    ∃ before middle after : String, s = before ++ middle ++ after ∧
      start = before.utf8ByteSize ∧ stop = before.utf8ByteSize + middle.utf8ByteSize := by
  obtain ⟨before, rest, hs, hbefore⟩ := String.Pos.Raw.isValid_iff_exists_append.1 hstart
  obtain ⟨front, after, hs', hfront⟩ := String.Pos.Raw.isValid_iff_exists_append.1 hstop
  obtain rfl : start = before.utf8ByteSize := congrArg String.Pos.Raw.byteIdx hbefore
  obtain rfl : stop = front.utf8ByteSize := congrArg String.Pos.Raw.byteIdx hfront
  have hlists : before.toList ++ rest.toList = front.toList ++ after.toList := by
    rw [← String.toList_append, ← String.toList_append, ← hs, ← hs']
  rcases List.append_eq_append_iff.1 hlists with ⟨middle, hmiddle, -⟩ | ⟨back, hback, -⟩
  · obtain rfl : front = before ++ String.ofList middle := by
      rw [← String.ofList_toList (s := front), hmiddle, String.ofList_append, String.ofList_toList]
    exact ⟨before, String.ofList middle, after, hs', rfl, String.utf8ByteSize_append⟩
  · -- The second boundary is in front of the first, and not behind it, so they are one.
    obtain rfl : before = front ++ String.ofList back := by
      rw [← String.ofList_toList (s := before), hback, String.ofList_append, String.ofList_toList]
    rw [String.utf8ByteSize_append] at hle
    have hnone : String.ofList back = "" := String.utf8ByteSize_eq_zero_iff.1 (by omega)
    rw [hnone, String.append_empty]
    exact ⟨front, "", after, by simpa using hs', rfl, by simp⟩

end Text

namespace Placeholder

/-! ### Reading one placeholder -/

/-- The identifier is one that a placeholder may have. -/
structure IsProper (p : Placeholder) : Prop where
  /-- It is not empty. -/
  identifier_ne : p.identifier ≠ ""
  /-- It holds no bracket, no per cent sign and no blank character. -/
  of_mem_identifier : ∀ c ∈ p.identifier.toList,
    c ≠ '(' ∧ c ≠ ')' ∧ c ≠ '%' ∧ Text.isBlank c = false

variable {p : Placeholder} {c : Char} {cs rest before after : List Char}

theorem isIdentifierChar_iff :
    isIdentifierChar c = true ↔ c ≠ '(' ∧ c ≠ ')' ∧ c ≠ '%' ∧ Text.isBlank c = false := by
  simp [isIdentifierChar, and_assoc]

theorem toList_expression (p : Placeholder) :
    p.expression.toList = opening p.kind ++ p.identifier.toList ++ [')', '%'] := by
  simp [expression, opening]

theorem readOpening?_append (kind : PlaceholderKind) (body : List Char) :
    readOpening? (opening kind ++ body) = some (kind, body) := by
  cases kind <;> rfl

/-- **A placeholder is read at the start of a text** exactly when it is proper and the text begins
with its expression. -/
theorem read?_eq_some_iff :
    read? cs = some (p, rest) ↔ p.IsProper ∧ cs = p.expression.toList ++ rest := by
  constructor
  · intro h
    refine ⟨?_, eq_of_read?_eq_some h⟩
    unfold read? at h
    split at h
    · rename_i kind body _
      split at h
      · rename_i c identifier rest' htake _
        obtain ⟨rfl, rfl⟩ := Prod.mk.inj (Option.some.inj h)
        refine ⟨fun hempty ↦ ?_, fun d hd ↦ ?_⟩
        · simpa using congrArg String.toList hempty
        · rw [String.toList_ofList, ← htake] at hd
          exact isIdentifierChar_iff.1 (List.mem_takeWhile_imp hd)
      · cases h
    · cases h
  · rintro ⟨hp, rfl⟩
    have hchars : ∀ d ∈ p.identifier.toList, isIdentifierChar d = true :=
      fun d hd ↦ isIdentifierChar_iff.2 (hp.of_mem_identifier d hd)
    obtain ⟨c, identifier, hidentifier⟩ : ∃ c r, p.identifier.toList = c :: r := by
      refine List.exists_cons_of_ne_nil fun hnil ↦ hp.identifier_ne ?_
      rw [← String.ofList_toList (s := p.identifier), hnil]
    have htake : (p.identifier.toList ++ ')' :: '%' :: rest).takeWhile isIdentifierChar =
        c :: identifier := by
      rw [List.takeWhile_append_of_pos hchars, hidentifier]
      simp [isIdentifierChar]
    have hdrop : (p.identifier.toList ++ ')' :: '%' :: rest).dropWhile isIdentifierChar =
        ')' :: '%' :: rest := by
      rw [List.dropWhile_append_of_pos hchars]
      simp [isIdentifierChar]
    have hcs : p.expression.toList ++ rest =
        opening p.kind ++ (p.identifier.toList ++ ')' :: '%' :: rest) := by
      simp [toList_expression]
    rw [hcs, read?, readOpening?_append]
    simp only [htake, hdrop]
    rw [← hidentifier, String.ofList_toList]

/-- The per cent signs of an expression are its first and its last character. -/
theorem eq_nil_or_eq_nil_of_expression_eq (hp : p.IsProper)
    (h : p.expression.toList = before ++ '%' :: after) : before = [] ∨ after = [] := by
  obtain ⟨inner, hinner, hsign⟩ : ∃ inner, p.expression.toList = '%' :: (inner ++ ['%']) ∧
      '%' ∉ inner := by
    refine ⟨p.kind.word.toList ++ '(' :: p.identifier.toList ++ [')'], ?_, ?_⟩
    · simp [toList_expression, opening]
    · have hword : '%' ∉ p.kind.word.toList := by cases p.kind <;> decide
      have hidentifier : '%' ∉ p.identifier.toList :=
        fun hmem ↦ (hp.of_mem_identifier _ hmem).2.2.1 rfl
      simp [hword, hidentifier]
  rw [hinner] at h
  cases before with
  | nil => exact Or.inl rfl
  | cons b before =>
    rw [List.cons_append] at h
    obtain ⟨-, h⟩ := List.cons.inj h
    rcases List.eq_nil_or_concat after with rfl | ⟨after, d, rfl⟩
    · exact Or.inr rfl
    · rw [List.concat_eq_append, ← List.cons_append, ← List.append_assoc] at h
      obtain ⟨rfl, -⟩ := List.append_inj' h rfl
      exact absurd (List.mem_append_right _ List.mem_cons_self) hsign

/-! ### Where the placeholders among pieces stand -/

variable {s : String} {ps : List Piece} {offset : Nat} {o : Occurrence}

/-- How many bytes pieces take up in the text. -/
def writtenSize (ps : List Piece) : Nat :=
  (String.ofList (ps.flatMap written)).utf8ByteSize

theorem writtenSize_cons (piece : Piece) (ps : List Piece) :
    writtenSize (piece :: ps) = (String.ofList (written piece)).utf8ByteSize + writtenSize ps := by
  rw [writtenSize, List.flatMap_cons, String.ofList_append, String.utf8ByteSize_append, writtenSize]

theorem writtenSize_placeholder (p : Placeholder) (ps : List Piece) :
    writtenSize (.placeholder p :: ps) = p.expression.utf8ByteSize + writtenSize ps := by
  rw [writtenSize_cons, written, String.ofList_toList]

/-- A placeholder among pieces is found behind the pieces in front of it. -/
theorem exists_append_of_mem_occurrencesFrom (h : o ∈ occurrencesFrom offset ps) :
    ∃ before after, ps = before ++ .placeholder o.placeholder :: after ∧
      o.start = offset + writtenSize before ∧
      o.stop = o.start + o.placeholder.expression.utf8ByteSize := by
  induction ps generalizing offset with
  | nil => cases h
  | cons piece r ih =>
    cases piece with
    | literal text =>
      obtain ⟨before, after, rfl, hstart, hstop⟩ := ih h
      refine ⟨.literal text :: before, after, rfl, ?_, hstop⟩
      rw [hstart, writtenSize_cons, written, Nat.add_assoc]
    | placeholder p =>
      rcases List.mem_cons.1 h with rfl | h
      · exact ⟨[], r, rfl, rfl, rfl⟩
      · obtain ⟨before, after, rfl, hstart, hstop⟩ := ih h
        refine ⟨.placeholder p :: before, after, rfl, ?_, hstop⟩
        rw [hstart, writtenSize_placeholder, Nat.add_assoc]

theorem expression_size_pos (p : Placeholder) : 0 < p.expression.utf8ByteSize := by
  refine Nat.pos_of_ne_zero fun h ↦ ?_
  have hempty := congrArg String.toList (String.utf8ByteSize_eq_zero_iff.1 h)
  simp [toList_expression, opening] at hempty

/-- Placeholders are found one behind another. -/
theorem pairwise_occurrencesFrom (offset : Nat) (ps : List Piece) :
    (occurrencesFrom offset ps).Pairwise fun o o' ↦ o.stop ≤ o'.start := by
  induction ps generalizing offset with
  | nil => exact List.Pairwise.nil
  | cons piece r ih =>
    cases piece with
    | literal text => exact ih _
    | placeholder p =>
      refine List.pairwise_cons.2 ⟨fun o ho ↦ ?_, ih _⟩
      obtain ⟨before, -, -, hstart, -⟩ := exists_append_of_mem_occurrencesFrom ho
      rw [hstart]
      exact Nat.le_add_right _ _

theorem isProper_of_mem_pieces (h : .placeholder p ∈ pieces cs) : p.IsProper := by
  induction cs using pieces.induct with
  | case1 => simp [pieces] at h
  | case2 c r q rest hread ih =>
    rw [pieces_of_read?_eq_some hread] at h
    rcases List.mem_cons.1 h with h | h
    · obtain rfl := Piece.placeholder.inj h
      exact (read?_eq_some_iff.1 hread).1
    · exact ih h
  | case3 c r hread ih =>
    rw [pieces_of_read?_eq_none hread] at h
    refine ih ?_
    unfold consLiteral at h
    split at h <;> simp_all

theorem occurrencesFrom_consLiteral (c : Char) (offset : Nat) (ps : List Piece) :
    occurrencesFrom offset (consLiteral c ps) = occurrencesFrom (offset + c.utf8Size) ps := by
  unfold consLiteral
  split
  · rw [occurrencesFrom, occurrencesFrom, String.utf8ByteSize_ofList, String.utf8Len_cons,
      String.utf8ByteSize_ofList, Nat.add_comm (String.utf8Len _), Nat.add_assoc]
  · rw [occurrencesFrom, String.utf8ByteSize_ofList, String.utf8Len_cons, String.utf8Len_nil,
      Nat.zero_add]

theorem exists_toList_expression (p : Placeholder) : ∃ r, p.expression.toList = '%' :: r := by
  rw [toList_expression]
  exact ⟨_, rfl⟩

/-- The occurrence is one of those given, or begins at the last byte of one of them. -/
def Occurrence.CoveredBy (o : Occurrence) (os : List Occurrence) : Prop :=
  o ∈ os ∨ ∃ o' ∈ os, o.start + 1 = o'.stop

theorem Occurrence.CoveredBy.cons {os : List Occurrence} (h : o.CoveredBy os) (o' : Occurrence) :
    o.CoveredBy (o' :: os) :=
  h.imp (List.mem_cons_of_mem _) fun ⟨o'', ho'', hstop⟩ ↦ ⟨o'', List.mem_cons_of_mem _ ho'', hstop⟩

/-- **What is not found overlaps what is found**: a placeholder anywhere in a text is found, or
begins at the closing sign of one that is. -/
theorem coveredBy_occurrencesFrom (hp : p.IsProper)
    (h : cs = before ++ (p.expression.toList ++ after)) {start : Nat}
    (hstart : start = offset + String.utf8Len before) :
    Occurrence.CoveredBy ⟨p, start, start + p.expression.utf8ByteSize⟩
      (occurrencesFrom offset (pieces cs)) := by
  induction cs using pieces.induct generalizing offset before with
  | case1 =>
    have := congrArg List.length h
    simp [toList_expression] at this
  | case2 c r q rest hread ih =>
    obtain ⟨hq, hcs⟩ := read?_eq_some_iff.1 hread
    rw [pieces_of_read?_eq_some hread, occurrencesFrom]
    -- A placeholder that begins behind the one read here is looked for in the rest.
    have hbehind : ∀ behind, before = q.expression.toList ++ behind →
        rest = behind ++ (p.expression.toList ++ after) → Occurrence.CoveredBy
          ⟨p, start, start + p.expression.utf8ByteSize⟩
          (occurrencesFrom (offset + q.expression.utf8ByteSize) (pieces rest)) := by
      intro behind hbefore hrest
      refine ih hrest ?_
      rw [hstart, hbefore, String.utf8Len_append, String.utf8Len_toList, Nat.add_assoc]
    rcases List.append_eq_append_iff.1 (hcs.symm.trans h) with
      ⟨behind, hbefore, hrest⟩ | ⟨overlap, hexpression, hafter⟩
    · exact (hbehind behind hbefore hrest).cons _
    · cases overlap with
      | nil =>
        exact (hbehind [] (by simpa using hexpression.symm) (by simpa using hafter.symm)).cons _
      | cons b overlap =>
        obtain ⟨tail, htail⟩ := exists_toList_expression p
        obtain ⟨rfl, -⟩ : '%' = b ∧ _ := by
          rw [htail, List.cons_append, List.cons_append] at hafter
          exact List.cons.inj hafter
        rcases eq_nil_or_eq_nil_of_expression_eq hq hexpression with rfl | rfl
        · -- It begins with the one read here, so it is that one.
          rw [h, List.nil_append, read?_eq_some_iff.2 ⟨hp, rfl⟩] at hread
          obtain ⟨rfl, -⟩ := Prod.mk.inj (Option.some.inj hread)
          obtain rfl : start = offset := hstart
          exact Or.inl List.mem_cons_self
        · refine Or.inr ⟨_, List.mem_cons_self, ?_⟩
          have hsize := congrArg String.utf8Len hexpression
          rw [String.utf8Len_toList, String.utf8Len_append] at hsize
          have hsign : String.utf8Len ['%'] = 1 := rfl
          rw [hsize, hsign, hstart, Nat.add_assoc]
  | case3 c r hread ih =>
    -- No placeholder begins here, so this one begins further on.
    cases before with
    | nil =>
      rw [List.nil_append] at h
      rw [h, read?_eq_some_iff.2 ⟨hp, rfl⟩] at hread
      cases hread
    | cons b before =>
      obtain ⟨rfl, hr⟩ := List.cons.inj h
      rw [pieces_of_read?_eq_none hread, occurrencesFrom_consLiteral]
      rw [String.utf8Len_cons] at hstart
      exact ih hr (by omega)

/-! ### What is found in a text -/

/-- The occurrence stands in the text: it is a proper placeholder, and the text between two
boundaries of characters is its expression. -/
structure Occurrence.StandsIn (o : Occurrence) (s : String) : Prop where
  /-- The placeholder is one that can be written. -/
  isProper : o.placeholder.IsProper
  /-- It begins between two characters. -/
  isValid_start : String.Pos.Raw.IsValid s ⟨o.start⟩
  /-- It ends between two characters. -/
  isValid_stop : String.Pos.Raw.IsValid s ⟨o.stop⟩
  /-- Its expression stands there. -/
  slice_eq : Text.slice s o.start o.stop = o.placeholder.expression

theorem standsIn_iff : o.StandsIn s ↔ o.placeholder.IsProper ∧
    ∃ before after : String, s = before ++ o.placeholder.expression ++ after ∧
      o.start = before.utf8ByteSize ∧
      o.stop = before.utf8ByteSize + o.placeholder.expression.utf8ByteSize := by
  constructor
  · intro h
    have hle : o.start ≤ o.stop := by
      refine Nat.le_of_not_lt fun hlt ↦ ?_
      have hempty : Text.slice s o.start o.stop = "" := by
        rw [Text.slice, String.Pos.Raw.extract, if_pos (Nat.le_of_lt hlt)]
      have := expression_size_pos o.placeholder
      rw [← h.slice_eq, hempty] at this
      exact Nat.lt_irrefl 0 this
    obtain ⟨before, middle, after, rfl, hstart, hstop⟩ :=
      Text.exists_append_of_isValid h.isValid_start h.isValid_stop hle
    have hmiddle := h.slice_eq
    rw [hstart, hstop, Text.slice_append] at hmiddle
    exact ⟨h.isProper, before, after, by rw [hmiddle], hstart, by rw [hstop, hmiddle]⟩
  · rintro ⟨hp, before, after, rfl, hstart, hstop⟩
    refine ⟨hp, ?_, ?_, ?_⟩
    · rw [String.Pos.Raw.isValid_iff_exists_append, hstart]
      exact ⟨before, o.placeholder.expression ++ after, String.append_assoc, rfl⟩
    · rw [String.Pos.Raw.isValid_iff_exists_append, hstop, ← String.utf8ByteSize_append]
      exact ⟨before ++ o.placeholder.expression, after, rfl, rfl⟩
    · rw [hstart, hstop, Text.slice_append]

theorem standsIn_of_mem_occurrences (h : o ∈ occurrences s) : o.StandsIn s := by
  obtain ⟨before, after, hpieces, hstart, hstop⟩ := exists_append_of_mem_occurrencesFrom h
  have hmem : .placeholder o.placeholder ∈ pieces s.toList := by
    rw [← ofString, hpieces]
    exact List.mem_append_right _ List.mem_cons_self
  refine standsIn_iff.2 ⟨isProper_of_mem_pieces hmem, String.ofList (before.flatMap written),
    String.ofList (after.flatMap written), ?_, ?_, ?_⟩
  · have htext := flatMap_written_pieces s.toList
    rw [← ofString, hpieces, List.flatMap_append, List.flatMap_cons, written] at htext
    rw [← String.ofList_toList (s := s), ← htext, String.ofList_append, String.ofList_append,
      String.ofList_toList, String.append_assoc]
  · rw [hstart, Nat.zero_add, writtenSize]
  · rw [hstop, hstart, Nat.zero_add, writtenSize]

theorem occursIn_iff : occursIn s = true ↔ occurrences s ≠ [] := by
  unfold occursIn occurrences
  generalize ofString s = ps, 0 = offset
  induction ps generalizing offset with
  | nil => simp [occurrencesFrom]
  | cons piece r ih =>
    cases piece with
    | literal text => simpa [occurrencesFrom] using ih _
    | placeholder p => simp [occurrencesFrom]

/-! ### Cutting a text at what is found -/

section Splice

variable {m : Type → Type} [Monad m]

/-- The text from the byte `last` on, with the answer of `f` in the place of each placeholder. -/
def splice (s : String) (f : Placeholder → m String) (last : Nat) : List Occurrence → m String
  | [] => pure (Text.slice s last s.utf8ByteSize)
  | o :: r => do
    let text ← f o.placeholder
    let rest ← splice s f o.stop r
    pure (Text.slice s last o.start ++ text ++ rest)

/-- A piece with the answer of `f` in the place of a placeholder. -/
def spell (f : Placeholder → m String) : Piece → m String
  | .literal text => pure (String.ofList text)
  | .placeholder p => f p

variable [LawfulMonad m]

/-- Some literal text in front of the pieces is still to be copied. -/
theorem splice_occurrencesFrom (f : Placeholder → m String) {front literal : String}
    (h : s = front ++ literal ++ String.ofList (ps.flatMap written)) :
    splice s f front.utf8ByteSize
      (occurrencesFrom (front.utf8ByteSize + literal.utf8ByteSize) ps) =
        (fun texts ↦ literal ++ String.join texts) <$> ps.mapM (spell f) := by
  induction ps generalizing front literal with
  | nil =>
    have hsize : s.utf8ByteSize = front.utf8ByteSize + literal.utf8ByteSize := by simp [h]
    rw [occurrencesFrom, splice, hsize, h, Text.slice_append]
    simp
  | cons piece r ih =>
    rw [List.flatMap_cons, String.ofList_append, ← String.append_assoc] at h
    cases piece with
    | literal text =>
      have hfront : s = front ++ (literal ++ String.ofList text) ++
          String.ofList (r.flatMap written) := by
        rw [h, written, ← String.append_assoc]
      have ih := ih hfront
      rw [String.utf8ByteSize_append, ← Nat.add_assoc] at ih
      rw [occurrencesFrom, ih]
      simp [spell, String.append_assoc]
    | placeholder p =>
      rw [written, String.ofList_toList] at h
      have hliteral : Text.slice s front.utf8ByteSize
          (front.utf8ByteSize + literal.utf8ByteSize) = literal := by
        have hrest := Text.slice_append front literal
          (p.expression ++ String.ofList (r.flatMap written))
        rwa [← String.append_assoc, ← h] at hrest
      have hfront : s = front ++ literal ++ p.expression ++ "" ++
          String.ofList (r.flatMap written) := by
        rw [h, String.append_empty]
      have ih := ih hfront
      simp only [String.utf8ByteSize_append, String.utf8ByteSize_empty, Nat.add_zero,
        String.empty_append] at ih
      rw [occurrencesFrom, splice, hliteral, ih]
      simp [spell, String.append_assoc]

/-- **Cutting a text at its placeholders** is going through its pieces. -/
theorem splice_occurrences (s : String) (f : Placeholder → m String) :
    splice s f 0 (occurrences s) = String.join <$> (ofString s).mapM (spell f) := by
  have hs : s = "" ++ "" ++ String.ofList ((ofString s).flatMap written) := by
    simp [ofString, flatMap_written_pieces]
  have h := splice_occurrencesFrom f hs
  simpa [occurrences] using h

end Splice

/-- With their expressions in their places the text is as it was. -/
theorem splice_expression (s : String) :
    Id.run (splice s (fun p ↦ pure p.expression) 0 (occurrences s)) = s := by
  have hpiece : ∀ piece, spell (m := Id) (fun p ↦ pure p.expression) piece =
      pure (String.ofList (written piece)) := by
    intro piece
    cases piece <;> simp [spell, written]
  rw [splice_occurrences, funext hpiece, List.mapM_pure, ← String.toList_inj]
  simp [String.toList_join, List.flatMap_map, ofString, flatMap_written_pieces]

/-- **What is found in a text.** The placeholders found are in order and apart, each of them stands
in the text, and what else stands there begins at the closing sign of one of them. There are none
exactly when the text has no placeholder, and with the text between them they are the text. -/
theorem occurrences_exact (s : String) :
    (occurrences s).Pairwise (fun o o' ↦ o.stop ≤ o'.start) ∧
    (∀ o ∈ occurrences s, o.start < o.stop ∧ o.StandsIn s) ∧
    (∀ o : Occurrence, o.StandsIn s →
      o ∈ occurrences s ∨ ∃ o' ∈ occurrences s, o.start + 1 = o'.stop) ∧
    (occursIn s = true ↔ occurrences s ≠ []) ∧
    Id.run (splice s (fun p ↦ pure p.expression) 0 (occurrences s)) = s := by
  refine ⟨pairwise_occurrencesFrom 0 _, fun o ho ↦ ⟨?_, standsIn_of_mem_occurrences ho⟩,
    fun o ho ↦ ?_, occursIn_iff, splice_expression s⟩
  · obtain ⟨-, -, -, -, hstop⟩ := exists_append_of_mem_occurrencesFrom ho
    have := expression_size_pos o.placeholder
    omega
  · obtain ⟨hp, before, after, hs, hstart, hstop⟩ := standsIn_iff.1 ho
    have hcs : s.toList = before.toList ++ (o.placeholder.expression.toList ++ after.toList) := by
      rw [hs, String.append_assoc, String.toList_append, String.toList_append]
    have hstart' : o.start = 0 + String.utf8Len before.toList := by
      rw [hstart, String.utf8Len_toList, Nat.zero_add]
    have hcovered := coveredBy_occurrencesFrom hp hcs hstart'
    rw [← hstart] at hstop
    rwa [← hstop] at hcovered

/-- A text in which the sign that closes the first placeholder opens a second, and the sign that
closes the second opens a third. -/
def signsInCommon : String := "é%env(A)%const(B)%conf(c.d)% %env()%"

/-- The first and the third are found; the second stands in the text as well, and begins at the
closing sign of one that is found. -/
theorem occurrences_exact_signsInCommon :
    occurrences signsInCommon =
      [⟨⟨.environment, "A"⟩, 2, 10⟩, ⟨⟨.configuration, "c.d"⟩, 18, 29⟩] ∧
    Occurrence.StandsIn ⟨⟨.environment, "A"⟩, 2, 10⟩ signsInCommon ∧
    Occurrence.StandsIn ⟨⟨.constant, "B"⟩, 9, 19⟩ signsInCommon ∧
    ∃ o' ∈ occurrences signsInCommon, 9 + 1 = o'.stop := by
  have hfound : occurrences signsInCommon =
      [⟨⟨.environment, "A"⟩, 2, 10⟩, ⟨⟨.configuration, "c.d"⟩, 18, 29⟩] := by
    decide +kernel
  have hread : read? "%const(B)%".toList = some (⟨.constant, "B"⟩, []) := by decide +kernel
  have hsecond : Occurrence.StandsIn ⟨⟨.constant, "B"⟩, 9, 19⟩ signsInCommon :=
    standsIn_iff.2 ⟨(read?_eq_some_iff.1 hread).1, "é%env(A)", "conf(c.d)% %env()%",
      by decide +kernel, by decide +kernel, by decide +kernel⟩
  obtain ⟨-, hstands, hcovered, -, -⟩ := occurrences_exact signsInCommon
  refine ⟨hfound, (hstands _ ?_).2, hsecond, (hcovered _ hsecond).resolve_left ?_⟩
  · rw [hfound]
    exact List.mem_cons_self
  · rw [hfound]
    decide

end Placeholder

end LayeredConfig
