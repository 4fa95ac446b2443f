import EsModules.Declaration.Export
import EsModules.Proofs.Text.Pieces
import Mathlib.Data.List.Basic
import Mathlib.Data.List.TakeWhile

/-!
# Names in lists

The names of a list are those of its entries in order.  Blanks around an entry and commas behind the
last one have no part in them.

* `ExportRecord.listNames_append_comma`, `ExportRecord.listNames_joinWith`: entry by entry.
* `ExportRecord.listNames_append_end`: what may stand in front of the closing bracket.
* `ExportRecord.listNames_of_notMem`: a single entry.
* `ExportRecord.startsWithWord_append`: the word that marks an entry as a type.
* `ExportRecord.alias?_append`, `ExportRecord.alias?_written`: the word `as` between blanks.
-/

namespace EsModules

namespace ExportRecord

variable {name : List Char → List Char} {x y : List Char}

/-! ## Lists -/

theorem listNames_append_comma (name : List Char → List Char) (x y : List Char) :
    listNames name (x ++ ',' :: y) = listNames name x ++ listNames name y := by
  have hsplit : Text.splitOn ',' (x ++ ',' :: y) = Text.splitOn ',' x ++ Text.splitOn ',' y :=
    Text.splitWhere_append_cut rfl x y
  simp only [listNames, hsplit, List.map_append, List.filter_append]

/-- The names of a list are those of its entries in order. -/
theorem listNames_joinWith (name : List Char → List Char) (p : List Char) (ps : List (List Char)) :
    listNames name (Text.joinWith [','] (p :: ps)) = (p :: ps).flatMap (listNames name) := by
  induction ps generalizing p with
  | nil => simp [Text.joinWith]
  | cons q ps ih =>
    have hcomma : Text.joinWith [','] (p :: q :: ps) = p ++ ',' :: Text.joinWith [','] (q :: ps) := by
      simp [Text.joinWith]
    rw [hcomma, listNames_append_comma, ih q]
    rfl

/-- The names of a single entry, given without the blanks around it. -/
def entryNames (name : List Char → List Char) (entry : List Char) : List (List Char) :=
  (([entry].filter fun e => !isTypeEntry e).map name).filter fun n => !n.isEmpty

/-- A list without commas is one entry. -/
theorem listNames_of_notMem (h : ',' ∉ x) : listNames name x = entryNames name (Text.trim x) := by
  have hsplit : Text.splitOn ',' x = [x] := by
    refine Text.splitWhere_of_forall fun c hc => beq_false_of_ne ?_
    rintro rfl
    exact h hc
  simp only [listNames, hsplit, List.map_singleton, entryNames]

/-- What an entry is called that is not marked as a type. -/
theorem entryNames_of_name (htype : isTypeEntry x = false) (hne : name x ≠ []) :
    entryNames name x = [name x] := by
  simp [entryNames, htype, hne]

theorem entryNames_of_type (htype : isTypeEntry x = true) : entryNames name x = [] := by
  simp [entryNames, htype]

/-- An entry has no other name than its own. -/
theorem eq_of_mem_entryNames {n : List Char} (h : n ∈ entryNames name x) : n = name x := by
  obtain ⟨e, he, rfl⟩ := List.mem_map.1 (List.mem_filter.1 h).1
  rw [List.mem_singleton.1 (List.mem_filter.1 he).1]

/-! ## What stands in front of the closing bracket -/

theorem isBlank_of_isSpace {c : Char} (h : Ascii.isSpace c = true) : Text.isBlank c = true := by
  simp only [Ascii.isSpace, Ascii.isLineEnd, Bool.or_eq_true, beq_iff_eq] at h
  rcases h with (((rfl | rfl) | rfl) | rfl) | rfl | rfl <;> decide

/-- Blanks behind a text are trimmed. -/
theorem trim_append_blank {c : Char} (hc : Text.isBlank c = true) (x : List Char) :
    Text.trim (x ++ [c]) = Text.trim x := by
  have hend : ∀ y : List Char, Text.trimEnd (y ++ [c]) = Text.trimEnd y := by
    intro y
    unfold Text.trimEnd
    rw [List.reverse_append, List.reverse_singleton, List.singleton_append,
      List.dropWhile_cons_of_pos hc]
  induction x with
  | nil => simp [Text.trim, Text.trimStart, hc]
  | cons d x ih =>
    cases hd : Text.isBlank d with
    | true =>
      have hstart : ∀ y, Text.trim (d :: y) = Text.trim y := by
        intro y
        rw [Text.trim, Text.trimStart, List.dropWhile_cons_of_pos hd]
        rfl
      rw [List.cons_append, hstart, ih, hstart]
    | false =>
      have hstart : ∀ y, Text.trimStart (d :: y) = d :: y := by
        intro y
        rw [Text.trimStart, List.dropWhile_cons_of_neg (by simp [hd])]
      rw [Text.trim, Text.trim, List.cons_append, hstart, hstart, ← List.cons_append, hend]

/-- A blank or a comma behind a list has no part in its names. -/
theorem listNames_append_end (hempty : name [] = []) {trail : List Char}
    (htrail : ∀ c ∈ trail, Ascii.isSpace c = true ∨ c = ',') (x : List Char) :
    listNames name (x ++ trail) = listNames name x := by
  induction trail generalizing x with
  | nil => rw [List.append_nil]
  | cons c trail ih =>
    obtain ⟨hc, htrail⟩ := List.forall_mem_cons.1 htrail
    have hone : listNames name (x ++ [c]) = listNames name x := by
      rcases hc with hc | rfl
      · obtain ⟨init, last, hsplit, happend⟩ := @Text.exists_splitWhere_append _ (· == ',') x
        have hcomma : ∀ d ∈ [c], (d == ',') = false := by
          intro d hd
          obtain rfl := List.mem_singleton.1 hd
          refine beq_false_of_ne ?_
          rintro rfl
          cases hc
        have hlonger := happend _ _ _ (Text.splitWhere_of_forall hcomma)
        unfold listNames Text.splitOn
        rw [hlonger, hsplit, List.map_append, List.map_append, List.map_singleton,
          List.map_singleton, trim_append_blank (isBlank_of_isSpace hc)]
      · have hnil : listNames name [] = [] := by
          rw [listNames_of_notMem List.not_mem_nil]
          simp [entryNames, Text.trim, Text.trimStart, Text.trimEnd, hempty]
        rw [listNames_append_comma, hnil, List.append_nil]
    have hcons : x ++ c :: trail = (x ++ [c]) ++ trail := by simp
    rw [hcons, ih htrail, hone]

/-! ## The word in front of another name -/

/-- Whether a text starts with a word and a blank. -/
def startsWithWord (word : String) (x : List Char) : Bool :=
  (Text.dropPrefix? word.toList x).any fun rest => rest.head?.any Text.isBlank

theorem startsWithWord_iff {word : String} : startsWithWord word x = true ↔
    ∃ c rest, x = word.toList ++ c :: rest ∧ Text.isBlank c = true := by
  unfold startsWithWord
  constructor
  · intro h
    obtain ⟨rest, hrest, hblank⟩ := (Option.any_eq_true _ _).1 h
    obtain ⟨c, hc, hc'⟩ := (Option.any_eq_true _ _).1 hblank
    obtain ⟨rest, rfl⟩ := List.head?_eq_some_iff.1 hc
    exact ⟨c, rest, (Text.dropPrefix?_eq_some_iff.1 hrest).symm, hc'⟩
  · rintro ⟨c, rest, rfl, hc⟩
    rw [Text.dropPrefix?_eq_some_iff.2 rfl]
    simpa using hc

/-- Nothing is trimmed in front of a text that does not start with a blank. -/
theorem trimStart_eq_self (h : ∀ c ∈ x.head?, Text.isBlank c = false) : Text.trimStart x = x := by
  cases x with
  | nil => rfl
  | cons c x => exact List.dropWhile_cons_of_neg (by simp [h c rfl])

/-- A text without blanks starts with a word only if it is that word, and a blank follows. -/
theorem startsWithWord_append {word : String} (hword : ∀ c ∈ word.toList, Text.isBlank c = false)
    (hx : ∀ c ∈ x, Text.isBlank c = false)
    (hy : ∀ c ∈ y.head?, Text.isBlank c = true ∨ c ∉ word.toList) :
    startsWithWord word (x ++ y) = (x == word.toList && y.head?.any Text.isBlank) := by
  rw [Bool.eq_iff_iff, startsWithWord_iff, Bool.and_eq_true, beq_iff_eq, Option.any_eq_true]
  constructor
  · rintro ⟨c, rest, htext, hc⟩
    have hbare : ∀ {z : List Char}, (∀ c ∈ z, Text.isBlank c = false) → ∀ r,
        (z ++ r).takeWhile (fun c => !Text.isBlank c) =
          z ++ r.takeWhile fun c => !Text.isBlank c :=
      fun hz r => List.takeWhile_append_of_pos fun c hc => by simp [hz c hc]
    have hwords := congrArg (List.takeWhile fun c => !Text.isBlank c) htext
    rw [hbare hx, hbare hword, List.takeWhile_cons_of_neg (by simp [hc]), List.append_nil] at hwords
    cases y with
    | nil =>
      rw [List.takeWhile_nil, List.append_nil] at hwords
      rw [hwords, List.append_nil] at htext
      simp at htext
    | cons d y =>
      cases hd : Text.isBlank d with
      | true =>
        rw [List.takeWhile_cons_of_neg (by simp [hd]), List.append_nil] at hwords
        exact ⟨hwords, d, rfl, hd⟩
      | false =>
        rw [List.takeWhile_cons_of_pos (by simp [hd])] at hwords
        have hmem : d ∈ word.toList := by
          rw [← hwords]
          simp
        rcases hy d rfl with h | h
        · rw [hd] at h
          cases h
        · exact absurd hmem h
  · rintro ⟨rfl, c, hc, hblank⟩
    obtain ⟨rest, rfl⟩ := List.head?_eq_some_iff.1 hc
    exact ⟨c, rest, rfl, hblank⟩

theorem trimStart_append (h : Text.trimStart x ≠ []) (y : List Char) :
    Text.trimStart (x ++ y) = Text.trimStart x ++ y := by
  unfold Text.trimStart at h ⊢
  rw [List.dropWhile_append, if_neg]
  simpa using h

/-- The name behind the word `as` at the front of a text. -/
theorem alias?_cons (c : Char) (r : List Char) : alias? (c :: r) =
    if Text.isBlank c ∧ startsWithWord "as" (Text.trimStart r) then
      some (Text.trim ((Text.trimStart r).drop 2))
    else alias? r := by
  rw [alias?]
  cases hc : Text.isBlank c with
  | false => simp
  | true =>
    unfold startsWithWord
    cases hdrop : Text.dropPrefix? "as".toList (Text.trimStart r) with
    | none => rfl
    | some rest =>
      have hrest : (Text.trimStart r).drop 2 = rest := by
        rw [← Text.dropPrefix?_eq_some_iff.1 hdrop]
        rfl
      rw [hrest]
      dsimp only [Option.bind_some, Option.any_some]
      by_cases hblank : rest.head?.any Text.isBlank = true <;> simp [hblank]

/-- No such word stands in a text without blanks. -/
theorem alias?_append_of_bare {w : List Char} (hw : ∀ c ∈ w, Text.isBlank c = false)
    (x : List Char) : alias? (w ++ x) = alias? x := by
  induction w with
  | nil => rfl
  | cons c w ih =>
    obtain ⟨hc, hw⟩ := List.forall_mem_cons.1 hw
    rw [List.cons_append, alias?_cons, if_neg (by simp [hc]), ih hw]

/-- Blanks in front of a text without the word have no part in what it finds. -/
theorem alias?_append_of_blank {g : List Char} (hg : ∀ c ∈ g, Text.isBlank c = true)
    (hx : startsWithWord "as" (Text.trimStart x) = false) : alias? (g ++ x) = alias? x := by
  induction g with
  | nil => rfl
  | cons c g ih =>
    obtain ⟨-, hg⟩ := List.forall_mem_cons.1 hg
    have hstart : Text.trimStart (g ++ x) = Text.trimStart x := by
      unfold Text.trimStart
      rw [List.dropWhile_append_of_pos hg]
    rw [List.cons_append, alias?_cons, hstart, hx, if_neg (by simp), ih hg]

/-- The word between blanks, and the name behind it. -/
theorem alias?_written {g g' : List Char} (hne : g ≠ []) (hg : ∀ c ∈ g, Text.isBlank c = true)
    (hne' : g' ≠ []) (hg' : ∀ c ∈ g', Text.isBlank c = true) (y : List Char) :
    alias? (g ++ ("as".toList ++ (g' ++ y))) = some (Text.trim (g' ++ y)) := by
  obtain ⟨c, g, rfl⟩ := List.exists_cons_of_ne_nil hne
  obtain ⟨d, g', rfl⟩ := List.exists_cons_of_ne_nil hne'
  obtain ⟨hc, hg⟩ := List.forall_mem_cons.1 hg
  have hstart : Text.trimStart (g ++ ("as".toList ++ (d :: g' ++ y))) =
      "as".toList ++ (d :: g' ++ y) := by
    unfold Text.trimStart
    rw [List.dropWhile_append_of_pos hg]
    rfl
  have hword : startsWithWord "as" ("as".toList ++ (d :: g' ++ y)) = true :=
    startsWithWord_iff.2 ⟨d, g' ++ y, rfl, hg' d List.mem_cons_self⟩
  rw [List.cons_append, alias?_cons, hstart, if_pos ⟨hc, hword⟩]
  rfl

/-- What is not found in a text is not found in its beginning. -/
theorem alias?_of_append (h : alias? (x ++ y) = none) : alias? x = none := by
  induction x with
  | nil => rfl
  | cons c x ih =>
    rw [List.cons_append, alias?_cons] at h
    split at h
    · cases h
    rename_i hnot
    rw [alias?_cons, if_neg, ih h]
    rintro ⟨hc, hstarts⟩
    obtain ⟨d, rest, hx, hd⟩ := startsWithWord_iff.1 hstarts
    have hne : Text.trimStart x ≠ [] := by
      rw [hx]
      simp
    refine hnot ⟨hc, ?_⟩
    rw [trimStart_append hne, hx, List.append_assoc]
    exact startsWithWord_iff.2 ⟨d, rest ++ y, rfl, hd⟩

/-- A text without the word, in front of another that does not start with it, has no part in what
is found if it cannot end within the word. -/
theorem alias?_append (hx : alias? x = none) (hlast : ∀ c ∈ x.getLast?, c ≠ 'a' ∧ c ≠ 's')
    (hy : startsWithWord "as" (Text.trimStart y) = false) : alias? (x ++ y) = alias? y := by
  induction x with
  | nil => rfl
  | cons c x ih =>
    rw [alias?_cons] at hx
    split at hx
    · cases hx
    rename_i hnot
    have hlast' : ∀ d ∈ x.getLast?, d ≠ 'a' ∧ d ≠ 's' := by
      intro d hd
      refine hlast d ?_
      rw [List.getLast?_cons, hd]
      rfl
    rw [List.cons_append, alias?_cons, if_neg, ih hx hlast']
    rintro ⟨hc, hstarts⟩
    by_cases hblank : ∀ d ∈ x, Text.isBlank d = true
    · have hstart : Text.trimStart (x ++ y) = Text.trimStart y := by
        unfold Text.trimStart
        rw [List.dropWhile_append_of_pos hblank]
      rw [hstart, hy] at hstarts
      cases hstarts
    · -- the word would lie in the first text
      obtain ⟨d, z, hz⟩ := List.exists_cons_of_ne_nil
        (show Text.trimStart x ≠ [] from fun hnil => hblank (List.dropWhile_eq_nil_iff.1 hnil))
      have hstart : Text.trimStart (x ++ y) = d :: z ++ y := by
        rw [← hz]
        exact trimStart_append (hz ▸ List.cons_ne_nil d z) y
      obtain ⟨e, rest, hword, he⟩ := startsWithWord_iff.1 (hstart ▸ hstarts)
      have hrest : d :: (z ++ y) = 'a' :: 's' :: e :: rest := hword
      obtain ⟨front, hfront⟩ : Text.trimStart x <:+ x := List.dropWhile_suffix _
      have hend : ∀ b ∈ (d :: z).getLast?, b ≠ 'a' ∧ b ≠ 's' := by
        intro b hb
        refine hlast' b ?_
        rw [← hfront, hz, List.getLast?_append_of_ne_nil _ (List.cons_ne_nil d z)]
        exact hb
      match z with
      | [] =>
        obtain rfl : d = 'a' := (List.cons.inj hrest).1
        exact (hend 'a' rfl).1 rfl
      | [b] =>
        obtain rfl : b = 's' := (List.cons.inj (List.cons.inj hrest).2).1
        exact (hend 's' rfl).2 rfl
      | b :: b' :: z =>
        obtain ⟨rfl, hrest₁⟩ := List.cons.inj hrest
        obtain ⟨rfl, hrest₂⟩ := List.cons.inj hrest₁
        obtain ⟨rfl, -⟩ := List.cons.inj hrest₂
        refine hnot ⟨hc, ?_⟩
        rw [hz]
        exact startsWithWord_iff.2 ⟨b', z, rfl, he⟩

end ExportRecord

end EsModules
