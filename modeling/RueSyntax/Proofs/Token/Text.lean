import RueSyntax.Token.Comment
import RueSyntax.Token.Reading

/-!
# The texts of a terminal, and what may stand behind them

`t.HasText w` says that `w` is a text of the terminal `t`.  Where `w` is followed by `y`, a longer
reading may fit; `t.EndsBefore y` excludes that.  The two together put `t` among the readings of
`w ++ y` (`readings_of_hasText`), with at most one rival before it, and every reading comes from
such a split (`hasText_of_readings`).
-/

namespace RueSyntax

/-! ### Runs of bytes of one class -/

theorem takeWhile_append_of_all {p : UInt8 → Bool} {w y : Bytes} (hw : ∀ b ∈ w, p b = true)
    (hy : ∀ b ∈ y.head?, p b = false) : (w ++ y).takeWhile p = w := by
  rw [List.takeWhile_append_of_pos hw]
  cases y with
  | nil => simp
  | cons b y => rw [List.takeWhile_cons_of_neg (by simp [hy b rfl]), List.append_nil]

theorem head_dropWhile {p : UInt8 → Bool} {bs : Bytes} :
    ∀ b ∈ (bs.dropWhile p).head?, p b = false := by
  intro b hb
  have h := List.head?_dropWhile_not p bs
  rw [Option.mem_def.mp hb] at h
  simpa using h

namespace Byte

theorem isLetter_of_isDigit {b : UInt8} (h : isDigit b = true) : isLetter b = false := by
  grind [isDigit, isLetter]

theorem isWord_of_isLetter {b : UInt8} (h : isLetter b = true) : isWord b = true := by
  simp [isWord, h]

theorem isWord_of_isDigit {b : UInt8} (h : isDigit b = true) : isWord b = true := by
  simp [isWord, h]

theorem isBlank_of_isWord {b : UInt8} (h : isWord b = true) : isBlank b = false := by
  grind [isWord, isDigit, isLetter, isBlank]

theorem isWord_of_isBlank {b : UInt8} (h : isBlank b = true) : isWord b = false := by
  grind [isWord, isDigit, isLetter, isBlank]

theorem lt_of_isWord {b : UInt8} (h : isWord b = true) : b < 128 := by
  grind [isWord, isDigit, isLetter]

theorem lt_of_isBlank {b : UInt8} (h : isBlank b = true) : b < 128 := by
  grind [isBlank]

end Byte

namespace Comment

theorem opening_eq_none {bs : Bytes} (h : bs.head? ≠ some 47) : opening bs = none := by
  unfold opening
  split
  · exact (h rfl).elim
  · exact (h rfl).elim
  · rfl

/-- A slash alone opens no comment. -/
theorem opening_slash {bs : Bytes} (h : bs.head? ≠ some 47) (h' : bs.head? ≠ some 42) :
    opening (47 :: bs) = none := by
  unfold opening
  split
  · next h1 =>
    cases h1
    exact (h rfl).elim
  · next h1 =>
    cases h1
    exact (h' rfl).elim
  · rfl

end Comment

namespace Terminal

/-- A name: a letter or an underscore, and then letters, digits and underscores. -/
def IsName (w : Bytes) : Prop :=
  (∃ b ∈ w.head?, Byte.isLetter b = true) ∧ ∀ b ∈ w, Byte.isWord b = true

/-- A number: some digits, and nothing else. -/
def IsNumber (w : Bytes) : Prop := w ≠ [] ∧ ∀ b ∈ w, Byte.isDigit b = true

-- The instances are given by name: a byte of a text is looked for in the text, not among all bytes.

instance : DecidablePred IsName := fun w =>
  @instDecidableAnd _ _ (Option.decidableExistsMem w.head?) (List.decidableBAll _ w)

instance : DecidablePred IsNumber := fun w => @instDecidableAnd _ _ _ (List.decidableBAll _ w)

/-- The texts of a terminal. -/
def HasText (t : Terminal) (w : Bytes) : Prop :=
  match t.spelling with
  | some s => w = Bytes.ofString s
  | none => if t = .integer then IsNumber w else IsName w

instance (t : Terminal) : DecidablePred t.HasText := fun w =>
  match t with
  | word k => inferInstanceAs (Decidable (w = Bytes.ofString k.spelling))
  | mark m => inferInstanceAs (Decidable (w = Bytes.ofString m.spelling))
  | operator o => inferInstanceAs (Decidable (w = Bytes.ofString o.spelling))
  | unitType => inferInstanceAs (Decidable (w = Bytes.ofString "()"))
  | identifier => inferInstanceAs (Decidable (IsName w))
  | integer => inferInstanceAs (Decidable (IsNumber w))

/-- Nothing at the head of `y` makes a text of the terminal longer. -/
def EndsBefore : Terminal → Bytes → Prop
  | word _, y | identifier, y => ∀ b ∈ y.head?, Byte.isWord b = false
  | integer, y => ∀ b ∈ y.head?, Byte.isDigit b = false
  | mark .equals, y | operator .less, y | operator .greater, y => y.head? ≠ some 61
  | operator .divide, y => Comment.opening (47 :: y) = none
  | _, _ => True

/-- A reading that is tried before `t` where the text is `w`. -/
def Rival (t : Terminal) (w : Bytes) (t' : Terminal) : Prop :=
  (t = identifier ∧ ∃ k, Keyword.ofBytes? w = some k ∧ t' = word k) ∨
    (t = mark .openParen ∧ t' = unitType) ∨ (t = operator .minus ∧ t' = mark .arrow)

theorem hasText_word {k : Keyword} {w : Bytes} :
    (word k).HasText w ↔ Keyword.ofBytes? w = some k := by
  constructor
  · rintro rfl
    cases k <;> rfl
  · intro h
    have hk := List.find?_some h
    exact (eq_of_beq hk).symm

theorem isName_of_word {k : Keyword} {w : Bytes} (h : (word k).HasText w) : IsName w := by
  subst h
  cases k <;> decide

/-- The terminals whose texts are words: two of them side by side need something between. -/
def isWordLike : Terminal → Bool
  | word _ | identifier | integer => true
  | _ => false

/-- The texts of a terminal that are words are made of word bytes; the others begin with none. -/
theorem head_of_hasText {t : Terminal} {w : Bytes} (h : t.HasText w) :
    ∃ b w', w = b :: w' ∧ Byte.isWord b = t.isWordLike ∧ b < 128 ∧ Byte.isBlank b = false := by
  have hname : ∀ {w : Bytes}, IsName w →
      ∃ b w', w = b :: w' ∧ Byte.isWord b = true ∧ b < 128 ∧ Byte.isBlank b = false := by
    rintro w ⟨⟨b, hb, hl⟩, -⟩
    obtain ⟨w', rfl⟩ := List.head?_eq_some_iff.mp hb
    have hw := Byte.isWord_of_isLetter hl
    exact ⟨b, w', rfl, hw, Byte.lt_of_isWord hw, Byte.isBlank_of_isWord hw⟩
  cases t with
  | word k => exact hname (isName_of_word h)
  | identifier => exact hname h
  | integer =>
    obtain ⟨hne, hd⟩ := h
    obtain ⟨b, w', rfl⟩ := List.exists_cons_of_ne_nil hne
    have hw := Byte.isWord_of_isDigit (hd b List.mem_cons_self)
    exact ⟨b, w', rfl, hw, Byte.lt_of_isWord hw, Byte.isBlank_of_isWord hw⟩
  | unitType =>
    subst h
    exact ⟨_, _, rfl, by decide⟩
  | mark m =>
    subst h
    cases m <;> exact ⟨_, _, rfl, by decide⟩
  | operator o =>
    subst h
    cases o <;> exact ⟨_, _, rfl, by decide⟩

/-! ### Where a text ends -/

/-- What no text of any terminal goes on with. -/
theorem endsBefore_of_head {t : Terminal} {y : Bytes}
    (h : ∀ b ∈ y.head?, Byte.isWord b = false ∧ b ≠ 61 ∧ b ≠ 47 ∧ b ≠ 42) : t.EndsBefore y := by
  cases t with
  | word k => exact fun b hb => (h b hb).1
  | identifier => exact fun b hb => (h b hb).1
  | integer =>
    intro b hb
    have hw := (h b hb).1
    rw [Byte.isWord, Bool.or_eq_false_iff] at hw
    exact hw.2
  | unitType => trivial
  | mark m =>
    cases m with
    | equals => exact fun hb => (h 61 hb).2.1 rfl
    | _ => trivial
  | operator o =>
    cases o with
    | less => exact fun hb => (h 61 hb).2.1 rfl
    | greater => exact fun hb => (h 61 hb).2.1 rfl
    | divide =>
      exact Comment.opening_slash (fun hb => (h 47 hb).2.2.1 rfl) (fun hb => (h 42 hb).2.2.2 rfl)
    | _ => trivial

theorem endsBefore_of_blank {t : Terminal} {y : Bytes}
    (h : ∀ b ∈ y.head?, Byte.isBlank b = true) : t.EndsBefore y := by
  refine endsBefore_of_head fun b hb => ⟨Byte.isWord_of_isBlank (h b hb), ?_, ?_, ?_⟩ <;>
    (rintro rfl; exact absurd (h _ hb) (by decide))

/-- A word ends where no word goes on. -/
theorem endsBefore_of_isWordLike {t : Terminal} {y : Bytes} (ht : t.isWordLike = true)
    (h : ∀ b ∈ y.head?, Byte.isWord b = false) : t.EndsBefore y := by
  cases t with
  | word k => exact h
  | identifier => exact h
  | integer =>
    intro b hb
    have hw := h b hb
    rw [Byte.isWord, Bool.or_eq_false_iff] at hw
    exact hw.2
  | unitType => cases ht
  | mark m => cases ht
  | operator o => cases ht

/-- But for the sign of division, one byte decides whether a text ends. -/
theorem EndsBefore.of_head {t : Terminal} {y z : Bytes} (hy : t.EndsBefore y)
    (ht : t ≠ .operator .divide) (h : z.head? = y.head?) : t.EndsBefore z := by
  have hm : ∀ b ∈ z.head?, b ∈ y.head? := fun b hb => h ▸ hb
  cases t with
  | word k => exact fun b hb => hy b (hm b hb)
  | identifier => exact fun b hb => hy b (hm b hb)
  | integer => exact fun b hb => hy b (hm b hb)
  | unitType => trivial
  | mark m =>
    cases m with
    | equals => exact fun hb => hy (hm 61 hb)
    | _ => trivial
  | operator o =>
    cases o with
    | less => exact fun hb => hy (hm 61 hb)
    | greater => exact fun hb => hy (hm 61 hb)
    | divide => exact (ht rfl).elim
    | _ => trivial

end Terminal

namespace Reading

open Terminal

/-- The readings of a name. -/
theorem all_of_isName {w y : Bytes} (hw : IsName w) (hy : ∀ b ∈ y.head?, Byte.isWord b = false) :
    all (w ++ y) = ofWord w := by
  obtain ⟨⟨b, hb, hl⟩, hall⟩ := hw
  cases w with
  | nil => cases hb
  | cons c w =>
    cases hb
    rw [List.cons_append, all, if_pos hl, ← List.cons_append, takeWhile_append_of_all hall hy]

/-- The reading of a number. -/
theorem all_of_isNumber {w y : Bytes} (hw : IsNumber w)
    (hy : ∀ b ∈ y.head?, Byte.isDigit b = false) : all (w ++ y) = [(.integer, w.length)] := by
  obtain ⟨hne, hall⟩ := hw
  cases w with
  | nil => exact absurd rfl hne
  | cons c w =>
    have hd := hall c (by simp)
    rw [List.cons_append, all, if_neg (by simp [Byte.isLetter_of_isDigit hd]), if_pos hd,
      ← List.cons_append, takeWhile_append_of_all hall hy]

theorem all_openParen (y : Bytes) :
    all (40 :: y) = [(.mark .openParen, 1)] ∨
      all (40 :: y) = [(.unitType, 2), (.mark .openParen, 1)] := by
  rcases y with _ | ⟨b, y⟩
  · exact .inl rfl
  · by_cases hb : b = 41
    · subst hb
      exact .inr rfl
    · left
      show ofPunctuation (40 :: b :: y) = _
      rw [ofPunctuation]
      simp [hb]

theorem all_minus (y : Bytes) :
    all (45 :: y) = [(.operator .minus, 1)] ∨
      all (45 :: y) = [(.mark .arrow, 2), (.operator .minus, 1)] := by
  rcases y with _ | ⟨b, y⟩
  · exact .inl rfl
  · by_cases hb : b = 62
    · subst hb
      exact .inr rfl
    · left
      show ofPunctuation (45 :: b :: y) = _
      rw [ofPunctuation]
      simp [hb]

/-- The three marks that an equals sign would make longer. -/
theorem all_before_equals {y : Bytes} (hy : y.head? ≠ some 61) :
    all (61 :: y) = [(.mark .equals, 1)] ∧ all (60 :: y) = [(.operator .less, 1)] ∧
      all (62 :: y) = [(.operator .greater, 1)] := by
  rcases y with _ | ⟨b, y⟩
  · exact ⟨rfl, rfl, rfl⟩
  · have hb : b ≠ 61 := by simpa using hy
    refine ⟨?_, ?_, ?_⟩
    · show ofPunctuation (61 :: b :: y) = _
      rw [ofPunctuation]
      simp [hb]
    · show ofPunctuation (60 :: b :: y) = _
      rw [ofPunctuation]
      simp [hb]
    · show ofPunctuation (62 :: b :: y) = _
      rw [ofPunctuation]
      simp [hb]

/-- A text of a terminal that nothing makes longer is read as that terminal, unless a rival is. -/
theorem readings_of_hasText {t : Terminal} {w y : Bytes} (hw : t.HasText w)
    (hy : t.EndsBefore y) :
    ∃ before after, all (w ++ y) = before ++ (t, w.length) :: after ∧
      ∀ r ∈ before, t.Rival w r.1 := by
  cases t with
  | word k =>
    have hk := hasText_word.mp hw
    refine ⟨[], [(.identifier, w.length)], ?_, by simp⟩
    rw [all_of_isName (isName_of_word hw) hy, ofWord, hk]
    rfl
  | identifier =>
    refine ⟨(Keyword.ofBytes? w).toList.map fun k => (.word k, w.length), [],
      all_of_isName hw hy, ?_⟩
    intro r hr
    obtain ⟨k, hk, rfl⟩ := List.mem_map.mp hr
    exact .inl ⟨rfl, k, by simpa using hk, rfl⟩
  | integer => exact ⟨[], [], all_of_isNumber hw hy, by simp⟩
  | unitType =>
    subst hw
    exact ⟨[], [(.mark .openParen, 1)], rfl, by simp⟩
  | mark m =>
    subst hw
    cases m with
    | openParen =>
      rcases all_openParen y with h | h
      · exact ⟨[], [], h, by simp⟩
      · exact ⟨[(.unitType, 2)], [], h, by simp [Rival]⟩
    | equals => exact ⟨[], [], (all_before_equals hy).1, by simp⟩
    | arrow => exact ⟨[], [(.operator .minus, 1)], rfl, by simp⟩
    | _ => exact ⟨[], [], rfl, by simp⟩
  | operator o =>
    subst hw
    cases o with
    | minus =>
      rcases all_minus y with h | h
      · exact ⟨[], [], h, by simp⟩
      · exact ⟨[(.mark .arrow, 2)], [], h, by simp [Rival]⟩
    | less => exact ⟨[], [], (all_before_equals hy).2.1, by simp⟩
    | greater => exact ⟨[], [], (all_before_equals hy).2.2, by simp⟩
    | _ => exact ⟨[], [], rfl, by simp⟩

/-! ### Every reading is a text -/

theorem head?_ne_of_not_cons {b : UInt8} {y : Bytes} (h : ∀ z, y = b :: z → False) :
    y.head? ≠ some b := by
  intro hb
  obtain ⟨z, rfl⟩ := List.head?_eq_some_iff.mp hb
  exact h z rfl

/-- A reading of punctuation takes a text of its terminal. -/
theorem hasText_of_mem_ofPunctuation {bs : Bytes} {t : Terminal} {n : Nat}
    (hc : Comment.opening bs = none) (h : (t, n) ∈ ofPunctuation bs) :
    ∃ w y, bs = w ++ y ∧ w.length = n ∧ t.HasText w ∧ t.EndsBefore y := by
  unfold ofPunctuation at h
  split at h <;> simp only [List.mem_cons, List.not_mem_nil, or_false, Prod.mk.injEq] at h
  case h_1 =>
    rcases h with ⟨rfl, rfl⟩ | ⟨rfl, rfl⟩
    · exact ⟨[40, 41], _, rfl, rfl, rfl, trivial⟩
    · exact ⟨[40], _, rfl, rfl, rfl, trivial⟩
  case h_9 =>
    rcases h with ⟨rfl, rfl⟩ | ⟨rfl, rfl⟩
    · exact ⟨[45, 62], _, rfl, rfl, rfl, trivial⟩
    · exact ⟨[45], _, rfl, rfl, rfl, trivial⟩
  case h_13 =>
    obtain ⟨rfl, rfl⟩ := h
    exact ⟨[47], _, rfl, rfl, rfl, hc⟩
  -- a single sign that an equals sign would make longer
  case h_16 y hy =>
    obtain ⟨rfl, rfl⟩ := h
    exact ⟨[61], y, rfl, rfl, rfl, head?_ne_of_not_cons fun z hz => hy z (by rw [hz])⟩
  case h_19 y hy =>
    obtain ⟨rfl, rfl⟩ := h
    exact ⟨[60], y, rfl, rfl, rfl, head?_ne_of_not_cons fun z hz => hy z (by rw [hz])⟩
  case h_21 y hy =>
    obtain ⟨rfl, rfl⟩ := h
    exact ⟨[62], y, rfl, rfl, rfl, head?_ne_of_not_cons fun z hz => hy z (by rw [hz])⟩
  all_goals
    obtain ⟨rfl, rfl⟩ := h
    first
    | exact ⟨[_], _, rfl, rfl, rfl, trivial⟩
    | exact ⟨[_, _], _, rfl, rfl, rfl, trivial⟩

/-- The longest word at the head of a text that begins with a letter. -/
theorem isName_takeWhile {b : UInt8} {bs : Bytes} (hl : Byte.isLetter b = true) :
    IsName ((b :: bs).takeWhile Byte.isWord) := by
  refine ⟨⟨b, ?_, hl⟩, fun c hc => List.all_eq_true.mp List.all_takeWhile c hc⟩
  rw [List.takeWhile_cons_of_pos (Byte.isWord_of_isLetter hl)]
  rfl

/-- The readings of a word take the whole word, as a keyword or else as a name. -/
theorem hasText_of_ofWord {w : Bytes} {before after : List Reading} {t : Terminal} {n : Nat}
    (hw : IsName w) (h : ofWord w = before ++ (t, n) :: after) :
    w.length = n ∧ t.HasText w ∧ (t = .identifier ∨ ∃ k, t = .word k) ∧
      (t = .identifier → ∀ k, Keyword.ofBytes? w = some k → (.word k, n) ∈ before) := by
  rw [ofWord] at h
  cases hk : Keyword.ofBytes? w with
  | none =>
    rw [hk] at h
    rcases before with _ | ⟨x, before⟩
    · obtain ⟨⟨rfl, rfl⟩, -⟩ : (Terminal.identifier = t ∧ w.length = n) ∧ after = [] := by
        simpa using h
      exact ⟨rfl, hw, .inl rfl, fun _ k hk' => by cases hk'⟩
    · simp at h
  | some k =>
    rw [hk] at h
    rcases before with _ | ⟨x, before⟩
    · obtain ⟨⟨rfl, rfl⟩, -⟩ : (Terminal.word k = t ∧ w.length = n) ∧ _ = after := by
        simpa using h
      exact ⟨rfl, hasText_word.mpr hk, .inr ⟨k, rfl⟩, nofun⟩
    · rcases before with _ | ⟨z, before⟩
      · obtain ⟨rfl, ⟨rfl, rfl⟩, -⟩ :
            (.word k, w.length) = x ∧ (Terminal.identifier = t ∧ w.length = n) ∧ after = [] := by
          simpa using h
        refine ⟨rfl, hw, .inl rfl, fun _ k' hk' => ?_⟩
        cases hk'
        exact List.mem_singleton.mpr rfl
      · simp at h

/-- Every reading takes a text of its terminal that nothing makes longer, and where a name is read
the keyword of the same spelling is read before. -/
theorem hasText_of_readings {bs : Bytes} {before after : List Reading} {t : Terminal} {n : Nat}
    (hc : Comment.opening bs = none) (h : all bs = before ++ (t, n) :: after) :
    ∃ w y, bs = w ++ y ∧ w.length = n ∧ t.HasText w ∧ t.EndsBefore y ∧
      (t = .identifier → ∀ k, Keyword.ofBytes? w = some k → (.word k, n) ∈ before) := by
  have hm : (t, n) ∈ all bs := by simp [h]
  cases bs with
  | nil => simp [all] at h
  | cons b bs =>
    by_cases hl : Byte.isLetter b = true
    · rw [all, if_pos hl] at h
      obtain ⟨hn, ht, hk, hb⟩ := hasText_of_ofWord (isName_takeWhile hl) h
      refine ⟨_, _, List.takeWhile_append_dropWhile.symm, hn, ht, ?_, hb⟩
      rcases hk with rfl | ⟨k, rfl⟩ <;> exact head_dropWhile
    · by_cases hd : Byte.isDigit b = true
      · rw [all, if_neg hl, if_pos hd, List.mem_singleton, Prod.mk.injEq] at hm
        obtain ⟨rfl, rfl⟩ := hm
        refine ⟨_, _, List.takeWhile_append_dropWhile.symm, rfl, ⟨?_, ?_⟩, head_dropWhile, nofun⟩
        · simp [hd]
        · exact fun c hc => List.all_eq_true.mp List.all_takeWhile c hc
      · rw [all, if_neg hl, if_neg hd] at hm
        obtain ⟨w, y, hwy, hn, ht, hy⟩ := hasText_of_mem_ofPunctuation hc hm
        refine ⟨w, y, hwy, hn, ht, hy, ?_⟩
        rintro rfl
        obtain ⟨⟨c, hc, hcl⟩, -⟩ : IsName w := ht
        obtain ⟨w', rfl⟩ := List.head?_eq_some_iff.mp hc
        cases hwy
        exact absurd hcl hl

end Reading

end RueSyntax
