import Typeahead.Proofs.Enumeration

/-! # Sampling

A phrase is sampled by choosing places of lists, and every place that is chosen lies in its list:
sampling that fails on a place outside (`Expansion.sample?`) never fails.  What is sampled is one of
the phrases (`Expansion.sample_mem_words`), and as long as lists are shorter than the range of a
word every phrase is sampled from some words (`Expansion.exists_yields_sample`): each choice is made
by one word, or by that word and a zero. -/

namespace Typeahead

namespace Draws

/-! ### Words that come next -/

/-- The stream without its next `n` words. -/
def skip (d : Draws) (n : ℕ) : Draws := { d with taken := d.taken + n }

/-- The next words of the stream are the given ones. -/
def Next (d : Draws) (words : List UInt32) : Prop :=
  ∀ i (h : i < words.length), d.word (d.taken + i) = words[i]

theorem next_ofWords (words : List UInt32) : (ofWords words).Next words := by
  intro i h
  show words.getD ((0 + i) % words.length) 0 = words[i]
  rw [Nat.zero_add, Nat.mod_eq_of_lt h]
  simp [h]

theorem next_append {d : Draws} {us ws : List UInt32} (h : d.Next (us ++ ws)) :
    d.Next us ∧ (d.skip us.length).Next ws := by
  constructor
  · intro i hi
    rw [h i (by simp; omega), List.getElem_append_left hi]
  · intro i hi
    have hw := h (us.length + i) (by simpa using hi)
    rw [List.getElem_append_right (by omega)] at hw
    simpa [skip, Nat.add_assoc] using hw

/-- Drawing from any stream whose next words are the given ones takes just these words and gives
`a`. -/
def Yields {α : Type} (draw : StateM Draws α) (words : List UInt32) (a : α) : Prop :=
  ∀ d : Draws, d.Next words → draw d = (a, d.skip words.length)

theorem yields_pure {α : Type} (a : α) : Yields (pure a) [] a := fun _ _ => rfl

theorem Yields.bind {α β : Type} {draw : StateM Draws α} {next : α → StateM Draws β}
    {us ws : List UInt32} {a : α} {b : β} (ha : Yields draw us a) (hb : Yields (next a) ws b) :
    Yields (draw >>= next) (us ++ ws) b := by
  intro d h
  obtain ⟨hus, hws⟩ := next_append h
  have hnext : (draw >>= next) d = next (draw d).1 (draw d).2 := rfl
  rw [hnext, ha d hus, hb _ hws, List.length_append]
  simp [skip, Nat.add_assoc]

/-! ### Choosing a place -/

theorem scaled_div {n i m : ℕ} (hi : i < n) (hn : n < m) :
    (i * m + (n - 1)) / n < m ∧ (i * m + (n - 1)) / n * n / m = i := by
  have hpos : 0 < n := by omega
  have hle : (i + 1) * m ≤ n * m := Nat.mul_le_mul_right _ hi
  rw [Nat.succ_mul] at hle
  have hdiv := Nat.div_add_mod (i * m + (n - 1)) n
  have hmod := Nat.mod_lt (i * m + (n - 1)) hpos
  rw [Nat.mul_comm n] at hdiv
  constructor
  · rw [Nat.div_lt_iff_lt_mul hpos, Nat.mul_comm m]
    omega
  · apply Nat.div_eq_of_lt_le
    · omega
    · rw [Nat.succ_mul]
      omega

/-- Every place is chosen by some words: a word that is scaled to it, and a zero if a second word is
asked for, which then carries nothing over. -/
theorem exists_yields_pick {n i : ℕ} (hi : i < n) (hn : n < UInt32.size) :
    ∃ words, Yields (pick n) words i := by
  obtain ⟨hlt, hscaled⟩ := scaled_div hi hn
  generalize (i * UInt32.size + (n - 1)) / n = w at hlt hscaled
  have hword : (UInt32.ofNat w).toNat = w := UInt32.toNat_ofNat_of_lt' hlt
  by_cases hcarry : w * n % UInt32.size > (UInt32.size - n) % UInt32.size
  · refine ⟨[UInt32.ofNat w, 0], ?_⟩
    intro d h
    have h0 : d.word d.taken = UInt32.ofNat w := h 0 (by simp)
    have h1 : d.word (d.taken + 1) = 0 := h 1 (by simp)
    simp [pick, draw, h0, h1, hword, hcarry, hscaled, skip]
  · refine ⟨[UInt32.ofNat w], ?_⟩
    intro d h
    have h0 : d.word d.taken = UInt32.ofNat w := h 0 (by simp)
    simp [pick, draw, h0, hword, hcarry, hscaled, skip]

/-- The item at a place that is chosen among the places of a list, and nothing if the place that is
chosen lies outside the list. -/
def pickFrom? {α : Type} (l : List α) (d : Draws) : Option (α × Draws) :=
  l[(pick l.length d).1]?.map (·, (pick l.length d).2)

end Draws

namespace Expansion

/-! ### Sampling with a check of every place -/

/-- Draws one of the literals, if there are any. -/
def sampleHead? (literals : List String) (d : Draws) : Option (String × Draws) :=
  if literals = [] then some ("", d) else Draws.pickFrom? literals d

mutual

/-- Draws a phrase, and fails if a place that is chosen lies outside its list. -/
def sample? : Expansion → Draws → Option (String × Draws)
  | ⟨literals, branches⟩, d => do
    let head ← sampleHead? literals d
    if branches.isEmpty then
      return head
    else
      let place := Draws.pick branches.length head.2
      let rest ← sampleNth? branches place.1 place.2
      return (head.1 ++ rest.1, rest.2)

/-- Draws a phrase of the expansion at the given place, and fails if there is none. -/
def sampleNth? : List Expansion → ℕ → Draws → Option (String × Draws)
  | [], _, _ => none
  | branch :: _, 0, d => branch.sample? d
  | _ :: rest, n + 1, d => sampleNth? rest n d

end

/-! ### Sampling, position by position -/

theorem sampleHead_nil (d : Draws) : sampleHead [] d = ("", d) := rfl

theorem sampleHead_of_ne_nil {literals : List String} (h : literals ≠ []) (d : Draws) :
    sampleHead literals d = (literals.getD (Draws.pick literals.length d).1 "",
      (Draws.pick literals.length d).2) := by
  unfold sampleHead
  rw [if_neg h]
  rfl

theorem sample_terminal (literals : List String) (d : Draws) :
    sample ⟨literals, []⟩ d = sampleHead literals d := by
  rw [sample]
  rfl

theorem sample_branching (literals : List String) {branches : List Expansion} (h : branches ≠ [])
    (d : Draws) :
    sample ⟨literals, branches⟩ d =
      let head := sampleHead literals d
      let place := Draws.pick branches.length head.2
      let rest := sampleNth branches place.1 place.2
      (head.1 ++ rest.1, rest.2) := by
  cases branches with
  | nil => exact absurd rfl h
  | cons branch rest =>
      rw [sample]
      rfl

theorem sampleHead?_eq (literals : List String) (d : Draws) :
    sampleHead? literals d = some (sampleHead literals d) := by
  by_cases h : literals = []
  · subst h
    rfl
  · have hlt := Draws.pick_lt (List.length_pos_of_ne_nil h) d
    rw [sampleHead?, if_neg h, sampleHead_of_ne_nil h, Draws.pickFrom?]
    simp [hlt]

mutual

/-- No place that is chosen lies outside its list. -/
theorem sample?_eq : ∀ (e : Expansion) (d : Draws), e.sample? d = some (e.sample d)
  | ⟨literals, []⟩, d => by
      rw [sample?, sampleHead?_eq, sample_terminal]
      rfl
  | ⟨literals, branch :: rest⟩, d => by
      have hplace := Draws.pick_lt (List.length_pos_of_ne_nil (List.cons_ne_nil branch rest))
        (sampleHead literals d).2
      have hnth := sampleNth?_eq (branch :: rest) hplace
        (Draws.pick (branch :: rest).length (sampleHead literals d).2).2
      rw [sample?, sampleHead?_eq, sample_branching literals (List.cons_ne_nil _ _)]
      show Option.bind (sampleNth? (branch :: rest) _ _) _ = _
      rw [hnth]
      rfl

theorem sampleNth?_eq : ∀ (branches : List Expansion) {n : ℕ} (_ : n < branches.length)
    (d : Draws), sampleNth? branches n d = some (sampleNth branches n d)
  | [], _, h, _ => absurd h (Nat.not_lt_zero _)
  | branch :: _, 0, _, d => by
      rw [sampleNth?, sampleNth, sample?_eq branch d]
  | _ :: rest, n + 1, h, d => by
      rw [sampleNth?, sampleNth, sampleNth?_eq rest (Nat.lt_of_succ_lt_succ h) d]

end

/-! ### What is sampled is a phrase -/

theorem sampleHead_mem_heads (literals : List String) (d : Draws) :
    (sampleHead literals d).1 ∈ heads literals := by
  by_cases h : literals = []
  · subst h
    simp [sampleHead_nil, heads]
  · have hlt := Draws.pick_lt (List.length_pos_of_ne_nil h) d
    rw [sampleHead_of_ne_nil h, heads, if_neg h]
    simp [hlt]

mutual

theorem sample_mem_words : ∀ (e : Expansion) (d : Draws), (e.sample d).1 ∈ e.words
  | ⟨literals, []⟩, d => by
      rw [sample_terminal, words_terminal]
      exact sampleHead_mem_heads literals d
  | ⟨literals, branch :: rest⟩, d => by
      have hne : branch :: rest ≠ [] := List.cons_ne_nil _ _
      have hplace := Draws.pick_lt (List.length_pos_of_ne_nil hne) (sampleHead literals d).2
      rw [sample_branching literals hne, words_branching literals hne]
      exact mem_product.mpr ⟨_, sampleHead_mem_heads literals d, _,
        sampleNth_mem_wordsAll (branch :: rest) hplace _, rfl⟩

theorem sampleNth_mem_wordsAll : ∀ (branches : List Expansion) {n : ℕ} (_ : n < branches.length)
    (d : Draws), (sampleNth branches n d).1 ∈ wordsAll branches
  | [], _, h, _ => absurd h (Nat.not_lt_zero _)
  | branch :: _, 0, _, d => by
      rw [sampleNth, wordsAll]
      exact List.mem_append_left _ (sample_mem_words branch d)
  | _ :: rest, n + 1, h, d => by
      rw [sampleNth, wordsAll]
      exact List.mem_append_right _ (sampleNth_mem_wordsAll rest (Nat.lt_of_succ_lt_succ h) d)

end

/-! ### Every phrase is sampled -/

mutual

/-- Every list of the expansion is shorter than the range of a word. -/
def Narrow : Expansion → Prop
  | ⟨literals, branches⟩ =>
    literals.length < UInt32.size ∧ branches.length < UInt32.size ∧ AllNarrow branches

/-- Every list of each of the expansions is shorter than the range of a word. -/
def AllNarrow : List Expansion → Prop
  | [] => True
  | branch :: rest => Narrow branch ∧ AllNarrow rest

end

open Draws (Yields)

theorem exists_yields_sampleHead {literals : List String} (h : literals.length < UInt32.size)
    {head : String} (hhead : head ∈ heads literals) :
    ∃ words, Yields (sampleHead literals) words head := by
  unfold heads at hhead
  split at hhead
  · rename_i hnil
    subst hnil
    obtain rfl := List.mem_singleton.mp hhead
    exact ⟨[], Draws.yields_pure ""⟩
  · rename_i hne
    obtain ⟨i, hi, rfl⟩ := List.mem_iff_getElem.mp hhead
    obtain ⟨words, hwords⟩ := Draws.exists_yields_pick hi h
    refine ⟨words, ?_⟩
    intro d hd
    rw [sampleHead_of_ne_nil hne, hwords d hd]
    simp [hi]

mutual

/-- Every phrase is sampled from some words. -/
theorem exists_yields_sample : ∀ {e : Expansion} (_ : e.Narrow) {w : String} (_ : w ∈ e.words),
    ∃ words, Yields e.sample words w
  | ⟨literals, []⟩, hnarrow, w, hw => by
      obtain ⟨words, hwords⟩ := exists_yields_sampleHead hnarrow.1 hw
      refine ⟨words, ?_⟩
      intro d hd
      rw [sample_terminal]
      exact hwords d hd
  | ⟨literals, branch :: rest⟩, hnarrow, w, hw => by
      have hne : branch :: rest ≠ [] := List.cons_ne_nil _ _
      obtain ⟨hliterals, hlength, hall⟩ := hnarrow
      rw [words_branching literals hne] at hw
      obtain ⟨head, hhead, tail, htail, rfl⟩ := mem_product.mp hw
      obtain ⟨us, hus⟩ := exists_yields_sampleHead hliterals hhead
      obtain ⟨i, hi, ws, hws⟩ := exists_yields_sampleNth hall htail
      obtain ⟨vs, hvs⟩ := Draws.exists_yields_pick hi hlength
      refine ⟨us ++ (vs ++ (ws ++ [])), ?_⟩
      rw [sample]
      exact hus.bind (hvs.bind (hws.bind (Draws.yields_pure (head ++ tail))))

theorem exists_yields_sampleNth : ∀ {branches : List Expansion} (_ : AllNarrow branches)
    {w : String} (_ : w ∈ wordsAll branches),
    ∃ i, i < branches.length ∧ ∃ words, Yields (sampleNth branches i) words w
  | [], _, _, hw => by simp [wordsAll] at hw
  | branch :: rest, hnarrow, w, hw => by
      rw [wordsAll] at hw
      rcases List.mem_append.mp hw with hw | hw
      · obtain ⟨words, hwords⟩ := exists_yields_sample hnarrow.1 hw
        refine ⟨0, by simp, words, ?_⟩
        unfold sampleNth
        exact hwords
      · obtain ⟨i, hi, words, hwords⟩ := exists_yields_sampleNth hnarrow.2 hw
        refine ⟨i + 1, by simpa using hi, words, ?_⟩
        unfold sampleNth
        exact hwords

end

end Expansion

namespace Grammar

/-- Draws a phrase of a branch, and fails if a place that is chosen lies outside its list. -/
def sampleFrom? (g : Grammar String) (name : String) (d : Draws) :
    Option (Except GrammarError String × Draws) :=
  match g.expansion name with
  | .ok e => (e.sample? d).map fun r => (.ok r.1, r.2)
  | .error error => some (.error error, d)

section sampleFrom

variable {g : Grammar String} {name : String}

theorem sampleFrom_of_ok {e : Expansion} (h : g.expansion name = .ok e) (d : Draws) :
    g.sampleFrom name d = (.ok (e.sample d).1, (e.sample d).2) := by
  unfold sampleFrom
  rw [h]
  rfl

theorem sampleFrom_of_error {error : GrammarError} (h : g.expansion name = .error error)
    (d : Draws) : g.sampleFrom name d = (.error error, d) := by
  unfold sampleFrom
  rw [h]
  rfl

theorem sampleFrom?_eq (d : Draws) : g.sampleFrom? name d = some (g.sampleFrom name d) := by
  unfold sampleFrom?
  cases h : g.expansion name with
  | ok e =>
      show (e.sample? d).map _ = _
      rw [sampleFrom_of_ok h, Expansion.sample?_eq]
      rfl
  | error error => rw [sampleFrom_of_error h]

end sampleFrom

theorem exists_sample_of_words {g : Grammar String} {phrases : List String}
    (h : g.words = .ok phrases) (draws : Draws) :
    ∃ w ∈ phrases, ∃ draws', g.sample draws = (.ok w, draws') := by
  obtain ⟨e, he, rfl⟩ := wordsFrom_eq_ok_iff.mp h
  exact ⟨(e.sample draws).1, Expansion.sample_mem_words e draws, (e.sample draws).2,
    sampleFrom_of_ok he draws⟩

theorem sample_of_error {g : Grammar String} {error : GrammarError} (h : g.words = .error error)
    (draws : Draws) : g.sample draws = (.error error, draws) :=
  sampleFrom_of_error (wordsFrom_eq_error_iff.mp h) draws

/-- **Sampling and enumerating agree.**  Sampling never chooses a place outside a list.  If the
phrases of a branch can be listed, every sample is one of them, and otherwise every sample is the
error of the listing, for which no word is taken.  If all lists are shorter than the range of a word,
every phrase is sampled from some words. -/
theorem sampleFrom_agrees (g : Grammar String) (name : String) :
    (∀ d, g.sampleFrom? name d = some (g.sampleFrom name d)) ∧
      (∀ ws, g.wordsFrom name = .ok ws → ∀ d, ∃ w ∈ ws, (g.sampleFrom name d).1 = .ok w) ∧
      (∀ error, g.wordsFrom name = .error error → ∀ d, g.sampleFrom name d = (.error error, d)) ∧
      ((∀ e, g.expansion name = .ok e → e.Narrow) →
        ∀ ws, g.wordsFrom name = .ok ws → ∀ w ∈ ws,
          ∃ words, (g.sampleFrom name (Draws.ofWords words)).1 = .ok w) := by
  refine ⟨sampleFrom?_eq, ?_, ?_, ?_⟩
  · intro ws h d
    obtain ⟨e, he, rfl⟩ := wordsFrom_eq_ok_iff.mp h
    refine ⟨(e.sample d).1, Expansion.sample_mem_words e d, ?_⟩
    rw [sampleFrom_of_ok he]
  · intro error h d
    exact sampleFrom_of_error (wordsFrom_eq_error_iff.mp h) d
  · intro hnarrow ws h w hw
    obtain ⟨e, he, rfl⟩ := wordsFrom_eq_ok_iff.mp h
    obtain ⟨words, hwords⟩ := Expansion.exists_yields_sample (hnarrow e he) hw
    refine ⟨words, ?_⟩
    rw [sampleFrom_of_ok he, hwords _ (Draws.next_ofWords words)]

/-- A reference with a continuation: both of its phrases are sampled from some words. -/
theorem sampleFrom_agrees_greeting :
    let g : Grammar String :=
      ⟨.ofList [("greet", [.literal "hi", .literal "hello"]),
        ("main", [.reference "greet" (.text "!")])], mainBranch⟩
    (∀ e, g.expansion mainBranch = .ok e → e.Narrow) ∧
      ∀ w ∈ ["hi!", "hello!"], ∃ words, (g.sampleFrom mainBranch (Draws.ofWords words)).1 = .ok w := by
  intro g
  have hmain : g.branch? mainBranch = some [.reference "greet" (.text "!")] := by decide +kernel
  have hgreet : g.branch? "greet" = some [.literal "hi", .literal "hello"] := by decide +kernel
  have he : g.expansion mainBranch = .ok ⟨[], [⟨["hi", "hello"], [.text "!"]⟩]⟩ := by
    unfold expansion
    rw [expandBranch_of_some (by decide) hmain, Node.expand,
      expandBranch_of_some (by decide) hgreet]
    rfl
  have hnarrow : ∀ e, g.expansion mainBranch = .ok e → e.Narrow := by
    intro e h
    obtain rfl := Except.ok.inj (he.symm.trans h)
    simp [Expansion.Narrow, Expansion.AllNarrow, Expansion.text, UInt32.size]
  exact ⟨hnarrow, (sampleFrom_agrees g mainBranch).2.2.2 hnarrow _
    (wordsFrom_eq_ok_iff.mpr ⟨_, he, by decide⟩)⟩

end Grammar
end Typeahead
