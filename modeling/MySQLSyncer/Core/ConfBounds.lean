import MySQLSyncer.Core.ConfLines

/-! # The arrays of the configuration parser

The limits that `rs_init_conf` tests are larger than its arrays for names and keys. A file is read
here as words: what stands between brackets, the keys and the values. The parser stays inside its
arrays when each word that it comes to is short enough for its array and not only for the limit.
-/
namespace MySQLSyncer.Core

def word (stops w : List UInt8) : List UInt8 := w.takeWhile fun c => c ∉ stops

def behind (stops w : List UInt8) : List UInt8 := w.dropWhile fun c => c ∉ stops

def skipBlanks (w : List UInt8) : List UInt8 := w.dropWhile fun c => IsBlank c

/-- The text without its comments; a comment takes its newline with it. -/
def uncomment : Bool → List UInt8 → List UInt8
  | _, [] => []
  | false, c :: w => if c = 35 then uncomment true w else c :: uncomment false w
  | true, c :: w => if c = 10 then uncomment false w else uncomment true w

/-- Where in a text the parser is: the value of a setting comes behind its key. -/
inductive ConfPlace where
  | outside
  | heading
  | key
  | value (key : List UInt8)

variable {stops w rest u : List UInt8} {c : UInt8}

theorem behind_lt (h : behind stops w = c :: rest) : rest.length < w.length := by
  have hle := (List.dropWhile_suffix (l := w) fun c => decide (c ∉ stops)).length_le
  change (behind stops w).length ≤ _ at hle
  rw [h, List.length_cons] at hle
  exact hle

theorem behind_skipBlanks_lt (h : behind stops (skipBlanks w) = c :: rest) : rest.length < w.length :=
  (behind_lt h).trans_le (List.dropWhile_suffix _).length_le

/-- From this place on, each word that the parser comes to fits in its array, with the terminator
if the word is complete. A newline in a name or in a key, a key or value that is refused, and a value
that is too long together with its key are the last that the parser comes to. -/
def ConfFits (conf : ConfTable) (name : List UInt8) : ConfPlace → List UInt8 → Prop
  | .outside, w => ∀ c rest, behind [91] w = c :: rest → ConfFits conf name .heading rest
  | .heading, w =>
    (word [91, 93, 10] w).length ≤ rsMaxModuleLen + 1 ∧ ∀ c rest, behind [91, 93, 10] w = c :: rest →
      (c = 91 → ConfFits conf name .heading rest) ∧
      (c = 93 → (word [91, 93, 10] w).length ≤ rsMaxModuleLen ∧
        ConfFits conf name (if (cText (word [91, 93, 10] w)).take name.length = name then .key else .outside) rest)
  | .key, w =>
    (word [91, 32, 10] (skipBlanks w)).length ≤ rsMaxKeyLen + 1 ∧
        ∀ c rest, behind [91, 32, 10] (skipBlanks w) = c :: rest →
      (c = 91 → ConfFits conf name .heading rest) ∧
      (c = 32 → (word [91, 32, 10] (skipBlanks w)).length ≤ rsMaxKeyLen ∧
        ConfFits conf name (.value (word [91, 32, 10] (skipBlanks w))) rest)
  | .value key, w => ∀ c rest, behind [91, 10] (skipBlanks w) = c :: rest →
      (c = 91 → key.length + (word [91, 10] (skipBlanks w)).length ≤ rsConfValueMaxLen + 1 →
        ConfFits conf name .heading rest) ∧
      (c = 10 → key.length + (word [91, 10] (skipBlanks w)).length ≤ rsConfValueMaxLen →
        rsConfApply conf (cText key) (cText (word [91, 10] (skipBlanks w))) = .ok → ConfFits conf name .key rest)
termination_by _ w => w.length
decreasing_by
  all_goals first | exact behind_lt ‹_› | exact behind_skipBlanks_lt ‹_›

/-- From this place on the parser comes to an error, in a text whose words fit: a newline in a name or
in a key, a value that is too long together with its key, or a setting that is refused. -/
def ConfRefused (conf : ConfTable) (name : List UInt8) : ConfPlace → List UInt8 → Prop
  | .outside, w => ∃ c rest, ∃ _ : behind [91] w = c :: rest, ConfRefused conf name .heading rest
  | .heading, w => ∃ c rest, ∃ _ : behind [91, 93, 10] w = c :: rest,
      c = 10 ∨ c = 91 ∧ ConfRefused conf name .heading rest ∨
      c = 93 ∧ ConfRefused conf name (if (cText (word [91, 93, 10] w)).take name.length =
          name then .key else .outside) rest
  | .key, w => ∃ c rest, ∃ _ : behind [91, 32, 10] (skipBlanks w) = c :: rest,
      c = 10 ∨ c = 91 ∧ ConfRefused conf name .heading rest ∨
      c = 32 ∧ ConfRefused conf name (.value (word [91, 32, 10] (skipBlanks w))) rest
  | .value key, w => rsConfValueMaxLen + 1 < key.length + (word [91, 10] (skipBlanks w)).length ∨
      ∃ c rest, ∃ _ : behind [91, 10] (skipBlanks w) = c :: rest,
        c = 91 ∧ ConfRefused conf name .heading rest ∨
        c = 10 ∧ (rsConfValueMaxLen < key.length + (word [91, 10] (skipBlanks w)).length ∨
          rsConfApply conf (cText key) (cText (word [91, 10] (skipBlanks w))) ≠ .ok ∨ ConfRefused conf name .key rest)
termination_by _ w => w.length
decreasing_by
  all_goals first | exact behind_lt ‹_› | exact behind_skipBlanks_lt ‹_›

/-- From this place on the parser comes to a name or key that is longer than its array without the
terminator, or to a value that is longer than the limit for values. -/
def ConfLong (conf : ConfTable) (name : List UInt8) : ConfPlace → List UInt8 → Prop
  | .outside, w => ∃ c rest, ∃ _ : behind [91] w = c :: rest, ConfLong conf name .heading rest
  | .heading, w => rsMaxModuleLen < (word [91, 93, 10] w).length ∨ ∃ c rest, ∃ _ : behind [91, 93, 10] w = c :: rest,
      c = 91 ∧ ConfLong conf name .heading rest ∨
      c = 93 ∧ ConfLong conf name (if (cText (word [91, 93, 10] w)).take name.length =
          name then .key else .outside) rest
  | .key, w => rsMaxKeyLen < (word [91, 32, 10] (skipBlanks w)).length ∨
      ∃ c rest, ∃ _ : behind [91, 32, 10] (skipBlanks w) = c :: rest,
        c = 91 ∧ ConfLong conf name .heading rest ∨
        c = 32 ∧ ConfLong conf name (.value (word [91, 32, 10] (skipBlanks w))) rest
  | .value _, w => rsConfValueMaxLen < (word [91, 10] (skipBlanks w)).length ∨
      ∃ c rest, ∃ _ : behind [91, 10] (skipBlanks w) = c :: rest,
        c = 91 ∧ ConfLong conf name .heading rest ∨ c = 10 ∧ ConfLong conf name .key rest
termination_by _ w => w.length
decreasing_by
  all_goals first | exact behind_lt ‹_› | exact behind_skipBlanks_lt ‹_›

/-- Every store is inside its array, and a word that is too long ends in an error. -/
structure ConfInside (conf : ConfTable) (name : List UInt8) (chunks : List (List UInt8)) : Prop where
  inside : (rsInitConf conf name chunks).code ≠ none
  refuses : ConfLong conf name .outside (uncomment false chunks.flatten) →
      (rsInitConf conf name chunks).code = some .err

theorem word_stop (hw : ∀ x ∈ w, x ∉ stops) (hc : c ∈ stops) (u : List UInt8) : word stops (w ++ c :: u) = w := by
  rw [word, List.takeWhile_append_of_pos (by simpa using hw), List.takeWhile_cons_of_neg (by simpa using hc),
    List.append_nil]

theorem behind_stop (hw : ∀ x ∈ w, x ∉ stops) (hc : c ∈ stops) (u : List UInt8) :
    behind stops (w ++ c :: u) = c :: u := by
  rw [behind, List.dropWhile_append_of_pos (by simpa using hw), List.dropWhile_cons_of_neg (by simpa using hc)]

theorem word_all (hw : ∀ x ∈ w, x ∉ stops) : word stops w = w := by
  simpa [word, List.takeWhile_eq_self_iff] using hw

theorem behind_all (hw : ∀ x ∈ w, x ∉ stops) : behind stops w = [] := by
  simpa [behind, List.dropWhile_eq_nil_iff] using hw

theorem length_lt_word (hw : ∀ x ∈ w, x ∉ stops) (hc : c ∉ stops) (u : List UInt8) :
    w.length < (word stops (w ++ c :: u)).length := by
  rw [word, List.takeWhile_append_of_pos (by simpa using hw), List.takeWhile_cons_of_pos (by simpa using hc),
    List.length_append, List.length_cons]
  omega

theorem skipBlanks_blank (hc : IsBlank c) (u : List UInt8) : skipBlanks (c :: u) = skipBlanks u :=
  List.dropWhile_cons_of_pos (by simpa using hc)

theorem skipBlanks_word (hne : w ≠ []) (hw : ∀ x ∈ w.head?, ¬ IsBlank x) (u : List UInt8) :
    skipBlanks (w ++ u) = w ++ u := by
  cases w with
  | nil => exact absurd rfl hne
  | cons c w => exact List.dropWhile_cons_of_neg (by simpa using hw c rfl)

/-- Nothing is skipped when the text begins with a word, or with a byte that is no blank. -/
theorem skipBlanks_cons (hw : ∀ x ∈ w.head?, ¬ IsBlank x) (hc : ¬ (w = [] ∧ IsBlank c)) (u : List UInt8) :
    skipBlanks (w ++ c :: u) = w ++ c :: u := by
  by_cases hne : w = []
  · subst hne
    exact List.dropWhile_cons_of_neg (by simpa using fun hb => hc ⟨rfl, hb⟩)
  · exact skipBlanks_word hne hw _

theorem skipBlanks_all (hw : ∀ x ∈ w.head?, ¬ IsBlank x) : skipBlanks w = w := by
  by_cases hne : w = []
  · rw [hne]
    rfl
  · simpa using skipBlanks_word hne hw []

theorem word_snoc (hw : ∀ x ∈ w, x ∉ stops) (hc : c ∉ stops) : ∀ x ∈ w ++ [c], x ∉ stops := by
  intro x hx
  rcases List.mem_append.mp hx with hx | hx
  · exact hw x hx
  · rwa [List.mem_singleton.mp hx]

theorem head_snoc (hw : ∀ x ∈ w.head?, ¬ IsBlank x) (hc : ¬ (w = [] ∧ IsBlank c)) :
    ∀ x ∈ (w ++ [c]).head?, ¬ IsBlank x := by
  cases w with
  | nil => simpa using hc
  | cons b w => simpa using hw

def ConfScan.Reads (s : ConfScan) : ConfPlace → List UInt8 → Prop
  | .outside, w => s.inModule = false ∧ s.key = false ∧ s.value = false ∧ w = []
  | .heading, w => s.inModule = true ∧ s.key = false ∧ s.value = false ∧ s.m = w ∧ s.i = w.length ∧
      w.length ≤ rsMaxModuleLen + 1 ∧ ∀ x ∈ w, x ∉ [91, 93, 10]
  | .key, w => s.inModule = false ∧ s.key = true ∧ s.k = w ∧ s.i = w.length ∧ w.length ≤ rsMaxKeyLen + 1 ∧
      (∀ x ∈ w, x ∉ [91, 32, 10]) ∧ ∀ x ∈ w.head?, ¬ IsBlank x
  | .value key, w => s.inModule = false ∧ s.key = false ∧ s.value = true ∧ s.k = key ∧ s.v = w ∧
      s.i = key.length + w.length ∧ key.length + w.length ≤ rsConfValueMaxLen + 1 ∧
      (∀ x ∈ w, x ∉ [91, 10]) ∧ ∀ x ∈ w.head?, ¬ IsBlank x

inductive Agrees (conf : ConfTable) (name : List UInt8) (place : ConfPlace) (w : List UInt8) (c : UInt8)
    (t : ConfScan) : Prop
  | undefined (ht : t.status = .undefined) (hfits : ∀ u, ¬ ConfFits conf name place (w ++ c :: u))
  | failed (ht : t.status = .failed) (hfits : ∀ u, ConfFits conf name place (w ++ c :: u))
      (hrefused : ∀ u, ConfRefused conf name place (w ++ c :: u))
  | reads (place' : ConfPlace) (w' : List UInt8) (ht : t.status = .running) (hcomment : t.comment = false)
      (hreads : t.Reads place' w')
      (hfits : ∀ u, ConfFits conf name place (w ++ c :: u) ↔ ConfFits conf name place' (w' ++ u))
      (hrefused : ∀ u, ConfRefused conf name place (w ++ c :: u) ↔ ConfRefused conf name place' (w' ++ u))

variable {conf : ConfTable} {name : List UInt8} {s t : ConfScan} {place : ConfPlace} {key : List UInt8}

theorem ConfScan.Reads.fits (h : s.Reads place w) : ConfFits conf name place w := by
  cases place with
  | outside =>
    obtain ⟨-, -, -, rfl⟩ := h
    rw [ConfFits]
    nofun
  | heading =>
    obtain ⟨-, -, -, -, -, hlen, hw⟩ := h
    rw [ConfFits, word_all hw, behind_all hw]
    exact ⟨hlen, nofun⟩
  | key =>
    obtain ⟨-, -, -, -, hlen, hw, hhead⟩ := h
    rw [ConfFits, skipBlanks_all hhead, word_all hw, behind_all hw]
    exact ⟨hlen, nofun⟩
  | value key =>
    obtain ⟨-, -, -, -, -, -, -, hw, hhead⟩ := h
    rw [ConfFits, skipBlanks_all hhead, behind_all hw]
    nofun

/-- The parser has met no error in a word that it still reads. -/
theorem ConfScan.Reads.not_refused (h : s.Reads place w) : ¬ ConfRefused conf name place w := by
  cases place with
  | outside =>
    obtain ⟨-, -, -, rfl⟩ := h
    rw [ConfRefused]
    rintro ⟨c, rest, hc, -⟩
    cases hc
  | heading =>
    obtain ⟨-, -, -, -, -, -, hw⟩ := h
    rw [ConfRefused, behind_all hw]
    rintro ⟨c, rest, hc, -⟩
    cases hc
  | key =>
    obtain ⟨-, -, -, -, -, hw, hhead⟩ := h
    rw [ConfRefused, skipBlanks_all hhead, behind_all hw]
    rintro ⟨c, rest, hc, -⟩
    cases hc
  | value key =>
    obtain ⟨-, -, -, -, -, -, hlen, hw, hhead⟩ := h
    rw [ConfRefused, skipBlanks_all hhead, word_all hw, behind_all hw]
    rintro (hlong | ⟨c, rest, hc, -⟩)
    · exact absurd hlong hlen.not_gt
    · cases hc

theorem ConfScan.Reads.fits_bracket (h : s.Reads place w) (u : List UInt8) :
    ConfFits conf name place (w ++ 91 :: u) ↔ ConfFits conf name .heading u := by
  have hopen : ¬ (w = [] ∧ IsBlank 91) := fun hc => absurd hc.2 (by decide)
  cases place with
  | outside =>
    obtain ⟨-, -, -, rfl⟩ := h
    conv_lhs => rw [List.nil_append, ConfFits, behind, List.dropWhile_cons_of_neg (by simp)]
    simp
  | heading =>
    obtain ⟨-, -, -, -, -, hlen, hw⟩ := h
    conv_lhs => rw [ConfFits, word_stop hw (by decide), behind_stop hw (by decide)]
    simp [hlen]
  | key =>
    obtain ⟨-, -, -, -, hlen, hw, hhead⟩ := h
    conv_lhs => rw [ConfFits, skipBlanks_cons hhead hopen, word_stop hw (by decide), behind_stop hw (by decide)]
    simp [hlen]
  | value key =>
    obtain ⟨-, -, -, -, -, -, hlen, hw, hhead⟩ := h
    conv_lhs => rw [ConfFits, skipBlanks_cons hhead hopen, word_stop hw (by decide), behind_stop hw (by decide)]
    simp [hlen]

theorem ConfScan.Reads.refused_bracket (h : s.Reads place w) (u : List UInt8) :
    ConfRefused conf name place (w ++ 91 :: u) ↔ ConfRefused conf name .heading u := by
  have hopen : ¬ (w = [] ∧ IsBlank 91) := fun hc => absurd hc.2 (by decide)
  cases place with
  | outside =>
    obtain ⟨-, -, -, rfl⟩ := h
    conv_lhs => rw [List.nil_append, ConfRefused, behind, List.dropWhile_cons_of_neg (by simp)]
    simp
  | heading =>
    obtain ⟨-, -, -, -, -, -, hw⟩ := h
    conv_lhs => rw [ConfRefused, word_stop hw (by decide), behind_stop hw (by decide)]
    simp
  | key =>
    obtain ⟨-, -, -, -, -, hw, hhead⟩ := h
    conv_lhs => rw [ConfRefused, skipBlanks_cons hhead hopen, word_stop hw (by decide), behind_stop hw (by decide)]
    simp
  | value key =>
    obtain ⟨-, -, -, -, -, -, hlen, hw, hhead⟩ := h
    conv_lhs => rw [ConfRefused, skipBlanks_cons hhead hopen, word_stop hw (by decide), behind_stop hw (by decide)]
    simp [hlen.not_gt]

theorem confModule_agrees (hrun : s.status = .running) (hcomment : s.comment = false) (h : s.Reads .heading w)
    (h91 : c ≠ 91) : Agrees conf name .heading w c (confModule name false s c) := by
  obtain ⟨hin, hkey, hvalue, rfl, hi, hlen, hw⟩ := h
  have hlimit : ¬ rsConfModuleMaxLen < s.i := by
    rw [hi, Nat.not_lt]
    exact hlen.trans (by decide)
  rw [confModule, if_neg hlimit]
  by_cases h10 : c = 10
  · subst h10
    rw [if_pos (Or.inl rfl)]
    refine .failed rfl (fun u => ?_) fun u => ?_
    · rw [ConfFits, word_stop hw (by decide), behind_stop hw (by decide)]
      exact ⟨hlen, fun c rest hc => by cases hc; simp⟩
    · rw [ConfRefused, behind_stop hw (by decide)]
      exact ⟨10, u, rfl, Or.inl rfl⟩
  rw [if_neg (by simpa using h10)]
  by_cases hfull : rsMaxModuleLen < s.m.length
  · rw [if_pos hfull]
    refine .undefined rfl fun u hfits => ?_
    rw [ConfFits] at hfits
    by_cases h93 : c = 93
    · subst h93
      rw [word_stop hw (by decide), behind_stop hw (by decide)] at hfits
      exact absurd ((hfits.2 93 u rfl).2 rfl).1 hfull.not_ge
    · have hlonger := length_lt_word hw (c := c) (by simp [h91, h93, h10]) u
      exact absurd hfits.1 (by omega)
  rw [if_neg hfull]
  by_cases h93 : c = 93
  · subst h93
    have hfits (u : List UInt8) : ConfFits conf name .heading (s.m ++ 93 :: u) ↔
        ConfFits conf name (if (cText s.m).take name.length = name then .key else .outside) u := by
      conv_lhs => rw [ConfFits, word_stop hw (by decide), behind_stop hw (by decide)]
      simp [hlen, Nat.le_of_not_lt hfull]
    have hrefused (u : List UInt8) : ConfRefused conf name .heading (s.m ++ 93 :: u) ↔
        ConfRefused conf name (if (cText s.m).take name.length = name then .key else .outside) u := by
      conv_lhs => rw [ConfRefused, word_stop hw (by decide), behind_stop hw (by decide)]
      simp
    rw [if_neg (by decide)]
    split_ifs with hname
    · simp only [hname, if_true] at hfits hrefused
      exact .reads .key [] hrun hcomment ⟨rfl, rfl, rfl, rfl, Nat.zero_le _, by simp, by simp⟩ hfits hrefused
    · simp only [hname, if_false] at hfits hrefused
      exact .reads .outside [] hrun hcomment ⟨rfl, hkey, hvalue, rfl⟩ hfits hrefused
  · rw [if_pos h93]
    refine .reads .heading (s.m ++ [c]) hrun hcomment ⟨hin, hkey, hvalue, rfl, ?_, ?_, ?_⟩ (fun u => by simp)
      fun u => by simp
    · simp [hi]
    · simp only [List.length_append, List.length_singleton]
      omega
    · exact word_snoc hw (by simp [h91, h93, h10])

theorem confKey_agrees (hrun : s.status = .running) (hcomment : s.comment = false) (h : s.Reads .key w)
    (h91 : c ≠ 91) : Agrees conf name .key w c (confKey false s c) := by
  have hkept := h
  obtain ⟨hin, hkey, rfl, hi, hlen, hw, hhead⟩ := h
  rw [confKey]
  by_cases hblank : s.k = [] ∧ IsBlank c
  · rw [if_pos hblank]
    refine .reads .key s.k hrun hcomment hkept (fun u => ?_) fun u => ?_
    · rw [hblank.1, List.nil_append, List.nil_append, ConfFits, skipBlanks_blank hblank.2]
      conv_rhs => rw [ConfFits]
    · rw [hblank.1, List.nil_append, List.nil_append, ConfRefused, skipBlanks_blank hblank.2]
      conv_rhs => rw [ConfRefused]
  have hlimit : ¬ rsConfKeyMaxLen < s.i := by
    rw [hi, Nat.not_lt]
    exact hlen.trans (by decide)
  rw [if_neg hblank, if_neg hlimit]
  by_cases h10 : c = 10
  · subst h10
    have hne : s.k ≠ [] := fun hk => hblank ⟨hk, by decide⟩
    rw [if_pos ⟨Or.inl rfl, hne⟩]
    refine .failed rfl (fun u => ?_) fun u => ?_
    · rw [ConfFits, skipBlanks_cons hhead hblank, word_stop hw (by decide), behind_stop hw (by decide)]
      exact ⟨hlen, fun c rest hc => by cases hc; simp⟩
    · rw [ConfRefused, skipBlanks_cons hhead hblank, behind_stop hw (by decide)]
      exact ⟨10, u, rfl, Or.inl rfl⟩
  rw [if_neg (by simp [h10])]
  by_cases hfull : rsMaxKeyLen < s.k.length
  · rw [if_pos hfull]
    refine .undefined rfl fun u hfits => ?_
    rw [ConfFits, skipBlanks_cons hhead hblank] at hfits
    by_cases h32 : c = 32
    · subst h32
      rw [word_stop hw (by decide), behind_stop hw (by decide)] at hfits
      exact absurd ((hfits.2 32 u rfl).2 rfl).1 hfull.not_ge
    · have hlonger := length_lt_word hw (c := c) (by simp [h91, h32, h10]) u
      exact absurd hfits.1 (by omega)
  rw [if_neg hfull]
  by_cases h32 : c = 32
  · subst h32
    rw [if_neg (by decide)]
    have hvalue : s.k.length + ([] : List UInt8).length ≤ rsConfValueMaxLen + 1 := hlen.trans (by decide)
    refine .reads (.value s.k) [] hrun hcomment ⟨hin, rfl, rfl, rfl, rfl, hi, hvalue, by simp, by simp⟩
      (fun u => ?_) fun u => ?_
    · conv_lhs => rw [ConfFits, skipBlanks_cons hhead hblank, word_stop hw (by decide), behind_stop hw (by decide)]
      simp [hlen, Nat.le_of_not_lt hfull]
    · conv_lhs => rw [ConfRefused, skipBlanks_cons hhead hblank, word_stop hw (by decide), behind_stop hw (by decide)]
      simp
  · rw [if_pos h32]
    refine .reads .key (s.k ++ [c]) hrun hcomment ⟨hin, hkey, rfl, ?_, ?_, ?_, head_snoc hhead hblank⟩
      (fun u => by simp) fun u => by simp
    · simp [hi]
    · simp only [List.length_append, List.length_singleton]
      omega
    · exact word_snoc hw (by simp [h91, h32, h10])

theorem confValue_agrees (hrun : s.status = .running) (hcomment : s.comment = false) (h : s.Reads (.value key) w)
    (h91 : c ≠ 91) : Agrees conf name (.value key) w c (confValue conf false s c) := by
  have hkept := h
  obtain ⟨hin, hkey, hvalue, rfl, rfl, hi, hlen, hw, hhead⟩ := h
  unfold confValue
  by_cases hblank : s.v = [] ∧ IsBlank c
  · rw [if_pos hblank]
    refine .reads (.value s.k) s.v hrun hcomment hkept (fun u => ?_) fun u => ?_
    · rw [hblank.1, List.nil_append, List.nil_append, ConfFits, skipBlanks_blank hblank.2]
      conv_rhs => rw [ConfFits]
    · rw [hblank.1, List.nil_append, List.nil_append, ConfRefused, skipBlanks_blank hblank.2]
      conv_rhs => rw [ConfRefused]
  rw [if_neg hblank]
  by_cases hlong : rsConfValueMaxLen < s.i
  · rw [if_pos hlong]
    rw [hi] at hlong
    by_cases h10 : c = 10
    · subst h10
      refine .failed rfl (fun u => ?_) fun u => ?_
      · rw [ConfFits, skipBlanks_cons hhead hblank, word_stop hw (by decide), behind_stop hw (by decide)]
        intro c rest hc
        cases hc
        exact ⟨by simp, fun _ hshort => absurd hshort hlong.not_ge⟩
      · rw [ConfRefused, skipBlanks_cons hhead hblank, word_stop hw (by decide), behind_stop hw (by decide)]
        exact Or.inr ⟨10, u, rfl, Or.inr ⟨rfl, Or.inl hlong⟩⟩
    · have hlonger (u : List UInt8) := length_lt_word hw (c := c) (by simp [h91, h10]) u
      refine .failed rfl (fun u => ?_) fun u => ?_
      · rw [ConfFits, skipBlanks_cons hhead hblank]
        intro c' rest _
        have := hlonger u
        exact ⟨fun _ hshort => absurd hshort (by omega), fun _ hshort => absurd hshort (by omega)⟩
      · rw [ConfRefused, skipBlanks_cons hhead hblank]
        have := hlonger u
        exact Or.inl (by omega)
  have hroom : ¬ rsMaxValueLen < s.v.length := by
    rw [rsConfValueMaxLen] at hlen
    rw [rsMaxValueLen]
    omega
  rw [if_neg hlong, if_neg hroom]
  rw [hi] at hlong
  by_cases h10 : c = 10
  · subst h10
    rw [if_neg (by decide)]
    have hfits (u : List UInt8) : ConfFits conf name (.value s.k) (s.v ++ 10 :: u) ↔
        (rsConfApply conf (cText s.k) (cText s.v) = .ok → ConfFits conf name .key u) := by
      conv_lhs => rw [ConfFits, skipBlanks_cons hhead hblank, word_stop hw (by decide), behind_stop hw (by decide)]
      simp [Nat.le_of_not_lt hlong]
    have hrefused (u : List UInt8) : ConfRefused conf name (.value s.k) (s.v ++ 10 :: u) ↔
        rsConfApply conf (cText s.k) (cText s.v) ≠ .ok ∨ ConfRefused conf name .key u := by
      conv_lhs => rw [ConfRefused, skipBlanks_cons hhead hblank, word_stop hw (by decide), behind_stop hw (by decide)]
      simp [hlong, hlen.not_gt]
    dsimp only
    split_ifs with happly
    · simp only [happly, forall_const, ne_eq, not_true_eq_false, false_or] at hfits hrefused
      exact .reads .key [] hrun hcomment ⟨hin, rfl, rfl, rfl, Nat.zero_le _, by simp, by simp⟩ hfits hrefused
    · exact .failed rfl (fun u => (hfits u).mpr fun hok => absurd hok happly) fun u =>
          (hrefused u).mpr (Or.inl happly)
  · rw [if_pos ⟨h10, by decide⟩]
    refine .reads (.value s.k) (s.v ++ [c]) hrun hcomment
      ⟨hin, hkey, hvalue, rfl, rfl, ?_, ?_, ?_, head_snoc hhead hblank⟩ (fun u => by simp) fun u => by simp
    · simp only [List.length_append, List.length_singleton, hi]
      omega
    · simp only [List.length_append, List.length_singleton]
      omega
    · exact word_snoc hw (by simp [h91, h10])

theorem idle_agrees (hrun : s.status = .running) (hcomment : s.comment = false) (h : s.Reads .outside w)
    (h91 : c ≠ 91) : Agrees conf name .outside w c s := by
  obtain ⟨hin, hkey, hvalue, rfl⟩ := h
  refine .reads .outside [] hrun hcomment ⟨hin, hkey, hvalue, rfl⟩ (fun u => ?_) fun u => ?_
  · rw [List.nil_append, List.nil_append, ConfFits, behind, List.dropWhile_cons_of_pos (by simpa using h91)]
    conv_rhs => rw [ConfFits, behind]
  · rw [List.nil_append, List.nil_append, ConfRefused, behind, List.dropWhile_cons_of_pos (by simpa using h91)]
    conv_rhs => rw [ConfRefused, behind]

/-- The count of the lines is not looked at. -/
theorem ConfScan.Reads.line (h : s.Reads place w) (n : ℕ) (b : Bool) :
    ({ s with comment := b, line := n } : ConfScan).Reads place w := by
  cases place <;> exact h

theorem Agrees.line (h : Agrees conf name place w c t) (n : ℕ) : Agrees conf name place w c { t with line := n } := by
  cases h with
  | undefined ht hfits => exact .undefined ht hfits
  | failed ht hfits hrefused => exact .failed ht hfits hrefused
  | reads place' w' ht hcomment hreads hfits hrefused =>
    have hsame := hreads.line n t.comment
    exact .reads place' w' ht hcomment hsame hfits hrefused

theorem confChar_agrees (hrun : s.status = .running) (hcomment : s.comment = false) (h : s.Reads place w)
    (h35 : c ≠ 35) (h91 : c ≠ 91) : Agrees conf name place w c (confChar conf name false s c) := by
  cases place with
  | outside =>
    rw [confChar_idle hrun hcomment h.1 h.2.1 h.2.2.1 h35 h91]
    exact (idle_agrees hrun hcomment h h91).line _
  | heading =>
    rw [confChar_module hrun hcomment h.1 h35 h91]
    exact (confModule_agrees hrun hcomment h h91).line _
  | key =>
    rw [confChar_key hrun hcomment h.1 h.2.1 h35 h91]
    exact (confKey_agrees hrun hcomment h h91).line _
  | value key =>
    rw [confChar_value hrun hcomment h.1 h.2.1 h.2.2.1 h35 h91]
    exact (confValue_agrees hrun hcomment h h91).line _

theorem confChar_bracket (hrun : s.status = .running) (hcomment : s.comment = false) :
    confChar conf name false s 91 =
      { s with inModule := true, i := 0, value := false, key := false, m := [], line := s.lineAfter 91 } := by
  simp [confChar, hrun, hcomment, ConfScan.lineAfter]

structure Verdict (conf : ConfTable) (name : List UInt8) (r : ConfStatus) (place : ConfPlace)
    (w : List UInt8) : Prop where
  inside : r ≠ .undefined ↔ ConfFits conf name place w
  refused : r ≠ .undefined → (r = .failed ↔ ConfRefused conf name place w)

/-- Wherever the parser is, the rest of the text says how it ends. -/
theorem scan_verdict (hrun : s.status = .running) (h : s.Reads place w) (text : List UInt8) :
    Verdict conf name (scan conf name s text).status place (w ++ uncomment s.comment text) := by
  induction text generalizing s place w with
  | nil =>
    rw [scan_nil, hrun, uncomment, List.append_nil]
    exact ⟨iff_of_true (by simp) h.fits, fun _ => iff_of_false (by simp) h.not_refused⟩
  | cons c text ih =>
    rw [scan_cons]
    cases hcomment : s.comment with
    | true =>
      by_cases h10 : c = 10
      · subst h10
        have hnext : confChar conf name false s 10 = { s with comment := false, line := s.lineAfter 10 } := by
          simp [confChar, hrun, hcomment, ConfScan.lineAfter]
        rw [hnext, uncomment, if_pos rfl]
        exact ih hrun (h.line _ _)
      · rw [confChar_comment hrun hcomment h10, uncomment, if_neg h10]
        have hih := ih hrun h
        rwa [hcomment] at hih
    | false =>
      by_cases h35 : c = 35
      · subst h35
        have hnext : confChar conf name false s 35 = { s with comment := true, line := s.lineAfter 35 } := by
          simp [confChar, hrun, hcomment, ConfScan.lineAfter]
        rw [hnext, uncomment, if_pos rfl]
        exact ih hrun (h.line _ _)
      rw [uncomment, if_neg h35]
      by_cases h91 : c = 91
      · subst h91
        rw [confChar_bracket hrun hcomment]
        set t : ConfScan :=
          { s with inModule := true, i := 0, value := false, key := false, m := [], line := s.lineAfter 91 }
        have hreads : t.Reads .heading [] := ⟨rfl, rfl, rfl, rfl, rfl, Nat.zero_le _, by simp⟩
        have hih := ih (s := t) hrun hreads
        rw [show t.comment = false from hcomment] at hih
        exact ⟨hih.inside.trans (h.fits_bracket _).symm, fun hr => (hih.refused hr).trans (h.refused_bracket _).symm⟩
      · have hagrees : Agrees conf name place w c (confChar conf name false s c) :=
          confChar_agrees hrun hcomment h h35 h91
        cases hagrees with
        | undefined ht hfits =>
          rw [scan_stopped (by simp [ht]), ht]
          exact ⟨iff_of_false (fun hne => hne rfl) (hfits _), fun hne => absurd rfl hne⟩
        | failed ht hfits hrefused =>
          rw [scan_stopped (by simp [ht]), ht]
          exact ⟨iff_of_true (by simp) (hfits _), fun _ => iff_of_true rfl (hrefused _)⟩
        | reads place' w' ht hc hreads hfits hrefused =>
          have hih := ih ht hreads
          rw [hc] at hih
          exact ⟨hih.inside.trans (hfits _).symm, fun hr => (hih.refused hr).trans (hrefused _).symm⟩

/-- Whatever the file, however it is read in, and whatever section is looked for: every store of the
parser is inside its array and a word that is too long ends in an error, if and only if the words that
it comes to fit and, when one of them is too long, the text comes to an error. -/
theorem conf_inside_iff (conf : ConfTable) (name : List UInt8) (chunks : List (List UInt8)) :
    ConfInside conf name chunks ↔
      ConfFits conf name .outside (uncomment false chunks.flatten) ∧
      (ConfLong conf name .outside (uncomment false chunks.flatten) →
        ConfRefused conf name .outside (uncomment false chunks.flatten)) := by
  have hinit : ConfScan.init.Reads .outside [] := ⟨rfl, rfl, rfl, rfl⟩
  have hverdict : Verdict conf name (scan conf name .init chunks.flatten).status .outside
      (uncomment false chunks.flatten) := scan_verdict rfl hinit chunks.flatten
  rw [← rsInitConf_eq_scan] at hverdict
  have hnone (s : ConfScan) : s.code ≠ none ↔ s.status ≠ .undefined := by
    cases h : s.status <;> simp [ConfScan.code, h]
  have herr (s : ConfScan) : s.code = some .err ↔ s.status = .failed := by
    cases h : s.status <;> simp [ConfScan.code, h]
  constructor
  · rintro ⟨hinside, hrefuses⟩
    rw [hnone] at hinside
    exact ⟨hverdict.inside.mp hinside, fun hlong =>
      (hverdict.refused hinside).mp ((herr _).mp (hrefuses hlong))⟩
  · rintro ⟨hfits, hrefused⟩
    have hinside := hverdict.inside.mpr hfits
    exact ⟨(hnone _).mpr hinside, fun hlong => (herr _).mpr ((hverdict.refused hinside).mpr (hrefused hlong))⟩

/-- `[slave]` and `pool.initsize 1`: a key that is in use, and one byte too long for its array. -/
def sampleConf : List UInt8 :=
  [91, 115, 108, 97, 118, 101, 93, 10, 112, 111, 111, 108, 46, 105, 110, 105, 116, 115, 105, 122, 101, 32, 49, 10]

theorem not_conf_inside : ¬ ∀ (conf : ConfTable) (name : List UInt8) (chunks : List (List UInt8)),
    ConfInside conf name chunks := by
  intro hall
  exact (hall stringConf [115, 108, 97, 118, 101] [sampleConf]).inside (by decide +kernel)

/-- A name of seven bytes that the file ends in fits in its array, and is taken without an error. -/
example : (rsInitConf stringConf [115] [[91, 97, 98, 99, 100, 101, 102, 103]]).code = some .ok := by decide +kernel

end MySQLSyncer.Core
