import Typeahead.Proofs.Rendering

/-! # Parentheses at fault

Whether a script can be split depends on its parentheses alone.  `Script.scan` reads a script with
nothing in mind but the group that is open, and stops at the same fault as the reader of parts
(`Script.forget_outside`, `Script.forget_inside`).  A scan of two texts in a row is a scan of the
first and then of the second (`Script.scan_append`), so that a fault is that of one character after
a text without faults (`Script.scan_eq_error_iff`), and a group that is open was opened after such a
text (`Script.scan_eq_some_iff`). -/

namespace Typeahead
namespace Script

/-! ### Scanning -/

/-- The group that is open after a character, given by the offset of its parenthesis. -/
def scanChar (offset : ℕ) (opened : Option ℕ) (c : Char) : Except Fault (Option ℕ) :=
  if c = '(' then
    match opened with
    | none => .ok (some offset)
    | some _ => .error ⟨offset, .nested⟩
  else if c = ')' then
    match opened with
    | none => .error ⟨offset, .unmatched⟩
    | some _ => .ok none
  else .ok opened

/-- The group that is open after a text that begins `offset` characters into a script. -/
def scan (offset : ℕ) (opened : Option ℕ) : List Char → Except Fault (Option ℕ)
  | [] => .ok opened
  | c :: cs => do scan (offset + 1) (← scanChar offset opened c) cs

/-- A script must not end while a group is open. -/
def finish : Option ℕ → Except Fault Unit
  | none => .ok ()
  | some start => .error ⟨start, .unclosed⟩

section scan

variable {offset : ℕ} {opened : Option ℕ} {cs : List Char} {fault : Fault}

theorem scanChar_other {c : Char} (hopen : c ≠ '(') (hclose : c ≠ ')') :
    scanChar offset opened c = .ok opened := by
  unfold scanChar
  rw [if_neg hopen, if_neg hclose]

theorem scanChar_eq_error_iff {c : Char} :
    scanChar offset opened c = .error fault ↔
      (c = '(' ∧ opened ≠ none ∧ fault = ⟨offset, .nested⟩) ∨
        (c = ')' ∧ opened = none ∧ fault = ⟨offset, .unmatched⟩) := by
  by_cases hopen : c = '('
  · subst hopen
    cases opened <;> simp [scanChar, eq_comm]
  · by_cases hclose : c = ')'
    · subst hclose
      cases opened <;> simp [scanChar, eq_comm]
    · simp [scanChar_other hopen hclose, hopen, hclose]

theorem scan_cons_other {c : Char} (hopen : c ≠ '(') (hclose : c ≠ ')') (cs : List Char) :
    scan offset opened (c :: cs) = scan (offset + 1) opened cs := by
  rw [scan, scanChar_other hopen hclose]
  rfl

theorem scan_append (offset : ℕ) (opened : Option ℕ) (cs ds : List Char) :
    scan offset opened (cs ++ ds) =
      scan offset opened cs >>= fun now => scan (offset + cs.length) now ds := by
  induction cs generalizing offset opened with
  | nil => rfl
  | cons c cs ih =>
      rw [List.cons_append, scan, scan, List.length_cons]
      cases scanChar offset opened c with
      | error fault => rfl
      | ok now =>
          show scan (offset + 1) now (cs ++ ds) = _
          rw [ih, Nat.add_right_comm, Nat.add_assoc]
          rfl

theorem scan_concat (offset : ℕ) (opened : Option ℕ) (cs : List Char) (c : Char) :
    scan offset opened (cs ++ [c]) =
      scan offset opened cs >>= fun now => scanChar (offset + cs.length) now c := by
  rw [scan_append]
  refine bind_congr fun now => ?_
  rw [scan]
  cases scanChar (offset + cs.length) now c <;> rfl

theorem scan_flat (h : Flat cs) : scan offset opened cs = .ok opened := by
  induction cs generalizing offset with
  | nil => rfl
  | cons c cs ih =>
      obtain ⟨⟨hopen, hclose⟩, hcs⟩ := List.forall_mem_cons.mp h
      rw [scan_cons_other hopen hclose, ih hcs]

/-- A scan stops at the first character that is at fault after what precedes it. -/
theorem scan_eq_error_iff :
    scan offset opened cs = .error fault ↔
      ∃ before c after now, cs = before ++ c :: after ∧ scan offset opened before = .ok now ∧
        scanChar (offset + before.length) now c = .error fault := by
  constructor
  · intro h
    induction cs using List.reverseRecOn with
    | nil => cases h
    | append_singleton cs c ih =>
        rw [scan_concat, bind_eq_error_iff] at h
        rcases h with h | ⟨now, hnow, h⟩
        · obtain ⟨before, c', after, now, rfl, hnow, hfault⟩ := ih h
          exact ⟨before, c', after ++ [c], now, by simp, hnow, hfault⟩
        · exact ⟨cs, c, [], now, rfl, hnow, h⟩
  · rintro ⟨before, c, after, now, rfl, hnow, hfault⟩
    rw [scan_append, hnow]
    show scan (offset + before.length) now (c :: after) = _
    rw [scan, hfault]
    rfl

/-- The group that is open was opened where none was, and no parenthesis follows. -/
theorem scan_eq_some_iff {start : ℕ} :
    scan offset none cs = .ok (some start) ↔
      ∃ before within, cs = before ++ '(' :: within ∧ scan offset none before = .ok none ∧
        start = offset + before.length ∧ Flat within := by
  constructor
  · intro h
    induction cs using List.reverseRecOn with
    | nil => cases h
    | append_singleton cs c ih =>
        rw [scan_concat] at h
        obtain ⟨now, hnow, h⟩ := bind_eq_ok_iff.mp h
        by_cases hopen : c = '('
        · subst hopen
          cases now with
          | none =>
              obtain rfl : offset + cs.length = start := by simpa [scanChar] using h
              exact ⟨cs, [], rfl, hnow, rfl, by simp [Flat]⟩
          | some start' => simp [scanChar] at h
        · by_cases hclose : c = ')'
          · subst hclose
            cases now <;> simp [scanChar] at h
          · rw [scanChar_other hopen hclose] at h
            obtain rfl := Except.ok.inj h
            obtain ⟨before, within, rfl, hbefore, hstart, hwithin⟩ := ih hnow
            refine ⟨before, within ++ [c], by simp, hbefore, hstart, ?_⟩
            exact List.forall_mem_append.mpr ⟨hwithin, by simpa using ⟨hopen, hclose⟩⟩
  · rintro ⟨before, within, rfl, hbefore, rfl, hwithin⟩
    rw [scan_append, hbefore]
    exact scan_flat hwithin

end scan

/-! ### Scripts without faults -/

/-- The parentheses of a text. -/
def parentheses (cs : List Char) : List Char := cs.filter fun c => c = '(' || c = ')'

/-- An opening and a closing parenthesis, `n` times. -/
def pairs (n : ℕ) : List Char := (List.replicate n ['(', ')']).flatten

theorem pairs_succ (n : ℕ) : pairs (n + 1) = '(' :: ')' :: pairs n := rfl

/-- Nothing is at fault and no group is open where opening and closing parentheses alternate. -/
theorem scan_eq_none_iff (cs : List Char) (offset : ℕ) :
    (scan offset none cs = .ok none ↔ ∃ n, parentheses cs = pairs n) ∧
      ∀ start, scan offset (some start) cs = .ok none ↔ ∃ n, parentheses cs = ')' :: pairs n := by
  induction cs generalizing offset with
  | nil =>
      refine ⟨iff_of_true rfl ⟨0, rfl⟩, fun start => iff_of_false nofun ?_⟩
      rintro ⟨n, h⟩
      cases h
  | cons c cs ih =>
      obtain ⟨ihnone, ihsome⟩ := ih (offset + 1)
      by_cases hopen : c = '('
      · subst hopen
        constructor
        · show scan (offset + 1) (some offset) cs = _ ↔ ∃ n, '(' :: parentheses cs = pairs n
          rw [ihsome]
          constructor
          · rintro ⟨n, h⟩
            exact ⟨n + 1, by rw [h, pairs_succ]⟩
          · rintro ⟨n, h⟩
            cases n with
            | zero => cases h
            | succ n => exact ⟨n, (List.cons.inj h).2⟩
        · intro start
          refine iff_of_false nofun ?_
          rintro ⟨n, h⟩
          cases h
      · by_cases hclose : c = ')'
        · subst hclose
          constructor
          · refine iff_of_false nofun ?_
            rintro ⟨n, h⟩
            cases n <;> cases h
          · intro start
            show scan (offset + 1) none cs = _ ↔ ∃ n, ')' :: parentheses cs = ')' :: pairs n
            rw [ihnone]
            simp
        · have hkept : parentheses (c :: cs) = parentheses cs := by
            simp [parentheses, hopen, hclose]
          simp only [scan_cons_other hopen hclose, hkept]
          exact ⟨ihnone, ihsome⟩

/-! ### Reading and scanning -/

mutual

/-- Outside the groups, parts are read up to the fault at which a scan stops. -/
theorem forget_outside : ∀ (cs : List Char) (offset : ℕ) (back : List Char),
    (fun _ => ()) <$> outside offset back cs = scan offset none cs >>= finish
  | [], _, _ => rfl
  | c :: cs, offset, back => by
      by_cases hopen : c = '('
      · subst hopen
        rw [outside_open, Functor.map_map]
        exact forget_inside cs offset (offset + 1) []
      · by_cases hclose : c = ')'
        · subst hclose
          rw [outside_close]
          rfl
        · rw [outside_other offset back hopen hclose, scan_cons_other hopen hclose]
          exact forget_outside cs (offset + 1) (c :: back)

theorem forget_inside : ∀ (cs : List Char) (start offset : ℕ) (back : List Char),
    (fun _ => ()) <$> inside start offset back cs = scan offset (some start) cs >>= finish
  | [], _, _, _ => rfl
  | c :: cs, start, offset, back => by
      by_cases hopen : c = '('
      · subst hopen
        rw [inside_open]
        rfl
      · by_cases hclose : c = ')'
        · subst hclose
          rw [inside_close, Functor.map_map]
          exact forget_outside cs (offset + 1) []
        · rw [inside_other start offset back hopen hclose, scan_cons_other hopen hclose]
          exact forget_inside cs start (offset + 1) (c :: back)

end

theorem exists_parts_iff {script : String} :
    (∃ ps, parts script = .ok ps) ↔ scan 0 none script.toList = .ok none := by
  have h := forget_outside script.toList 0 []
  constructor
  · rintro ⟨ps, hps⟩
    rw [parts] at hps
    rw [hps] at h
    obtain ⟨now, hnow, hfinish⟩ := bind_eq_ok_iff.mp h.symm
    cases now with
    | none => exact hnow
    | some start => cases hfinish
  · intro hscan
    rw [hscan] at h
    obtain ⟨ps, hps, -⟩ := map_eq_ok_iff.mp h
    exact ⟨ps, hps⟩

theorem parts_eq_error_iff {script : String} {fault : Fault} :
    parts script = .error fault ↔
      scan 0 none script.toList = .error fault ∨
        ∃ start, scan 0 none script.toList = .ok (some start) ∧ fault = ⟨start, .unclosed⟩ := by
  rw [parts, ← map_eq_error_iff (f := fun _ => ()), forget_outside, bind_eq_error_iff]
  refine or_congr_right ⟨?_, ?_⟩
  · rintro ⟨now, hnow, hfinish⟩
    cases now with
    | none => cases hfinish
    | some start => exact ⟨start, hnow, (Except.error.inj hfinish).symm⟩
  · rintro ⟨start, hnow, rfl⟩
    exact ⟨some start, hnow, rfl⟩

/-! ### Where the fault is -/

section fault

variable {cs : List Char} {p : ℕ}

theorem scan_unmatched_iff :
    scan 0 none cs = .error ⟨p, .unmatched⟩ ↔
      ∃ before after, cs = before ++ ')' :: after ∧ before.length = p ∧
        scan 0 none before = .ok none := by
  simp only [scan_eq_error_iff, scanChar_eq_error_iff, Nat.zero_add]
  constructor
  · rintro ⟨before, c, after, now, rfl, hnow, ⟨-, -, hfault⟩ | ⟨rfl, rfl, hfault⟩⟩
    · cases hfault
    · cases hfault
      exact ⟨before, after, rfl, rfl, hnow⟩
  · rintro ⟨before, after, rfl, rfl, hnow⟩
    exact ⟨before, ')', after, none, rfl, hnow, .inr ⟨rfl, rfl, rfl⟩⟩

theorem scan_nested_iff :
    scan 0 none cs = .error ⟨p, .nested⟩ ↔
      ∃ before after, cs = before ++ '(' :: after ∧ before.length = p ∧
        ∃ start, scan 0 none before = .ok (some start) := by
  simp only [scan_eq_error_iff, scanChar_eq_error_iff, Nat.zero_add]
  constructor
  · rintro ⟨before, c, after, now, rfl, hnow, ⟨rfl, hopened, hfault⟩ | ⟨-, -, hfault⟩⟩
    · obtain ⟨start, rfl⟩ := Option.ne_none_iff_exists'.mp hopened
      cases hfault
      exact ⟨before, after, rfl, rfl, start, hnow⟩
    · cases hfault
  · rintro ⟨before, after, rfl, rfl, start, hnow⟩
    exact ⟨before, '(', after, some start, rfl, hnow, .inl ⟨rfl, nofun, rfl⟩⟩

theorem scan_ne_unclosed : scan 0 none cs ≠ .error ⟨p, .unclosed⟩ := by
  simp [scan_eq_error_iff, scanChar_eq_error_iff]

theorem scan_append_of_error {fault : Fault} (h : scan 0 none cs = .error fault) (ds : List Char) :
    scan 0 none (cs ++ ds) = .error fault := by
  rw [scan_append, h]
  rfl

variable {script : String}

theorem exists_texts_iff (mark : String) {c : Char} (hmark : mark.toList = [c])
    {P : List Char → List Char → Prop} :
    (∃ before after, script.toList = before ++ c :: after ∧ P before after) ↔
      ∃ before after : String, script = before ++ mark ++ after ∧ P before.toList after.toList := by
  constructor
  · rintro ⟨before, after, h, hP⟩
    refine ⟨.ofList before, .ofList after, String.toList_inj.mp ?_, by simpa using hP⟩
    simp [h, hmark]
  · rintro ⟨before, after, rfl, hP⟩
    exact ⟨before.toList, after.toList, by simp [hmark], hP⟩

theorem parts_unclosed_iff_scan :
    parts script = .error ⟨p, .unclosed⟩ ↔ scan 0 none script.toList = .ok (some p) := by
  rw [parts_eq_error_iff, or_iff_right scan_ne_unclosed]
  simp [eq_comm]

theorem parts_unmatched_iff :
    parts script = .error ⟨p, .unmatched⟩ ↔
      ∃ before after, script = before ++ ")" ++ after ∧ before.length = p ∧
        ∃ ps, parts before = .ok ps := by
  rw [parts_eq_error_iff, or_iff_left (by simp), scan_unmatched_iff,
    exists_texts_iff ")" (by decide)]
  simp only [exists_parts_iff, String.length_toList]

theorem parts_nested_iff :
    parts script = .error ⟨p, .nested⟩ ↔
      ∃ before after, script = before ++ "(" ++ after ∧ before.length = p ∧
        ∃ start, parts before = .error ⟨start, .unclosed⟩ := by
  rw [parts_eq_error_iff, or_iff_left (by simp), scan_nested_iff,
    exists_texts_iff "(" (by decide)]
  simp only [parts_unclosed_iff_scan, String.length_toList]

theorem parts_unclosed_iff :
    parts script = .error ⟨p, .unclosed⟩ ↔
      ∃ before after, script = before ++ "(" ++ after ∧ before.length = p ∧
        (∃ ps, parts before = .ok ps) ∧ Flat after.toList := by
  have hscan : scan 0 none script.toList = .ok (some p) ↔
      ∃ before within, script.toList = before ++ '(' :: within ∧
        before.length = p ∧ scan 0 none before = .ok none ∧ Flat within := by
    rw [scan_eq_some_iff]
    simp only [Nat.zero_add, eq_comm (a := p), and_left_comm]
  rw [parts_unclosed_iff_scan, hscan, exists_texts_iff "(" (by decide)]
  simp only [exists_parts_iff, String.length_toList]

end fault

/-- **Which parenthesis is at fault.**  A script can be split exactly if its opening and closing
parentheses alternate, each opening one with its closing one behind it.  A parenthesis is unmatched
if it closes nothing after a text that can be split, it is nested if it stands in a group that was
opened before it and is not closed, and it is unclosed if it opens a group after a text that can be
split and no parenthesis follows.  No further text takes back the first two. -/
theorem parts_fault_iff (script : String) :
    ((∃ ps, parts script = .ok ps) ↔ ∃ n, parentheses script.toList = pairs n) ∧
      (∀ p, parts script = .error ⟨p, .unmatched⟩ ↔
        ∃ before after, script = before ++ ")" ++ after ∧ before.length = p ∧
          ∃ ps, parts before = .ok ps) ∧
      (∀ p, parts script = .error ⟨p, .nested⟩ ↔
        ∃ before within after, script = before ++ "(" ++ within ++ "(" ++ after ∧
          (before ++ "(" ++ within).length = p ∧
          parts (before ++ "(" ++ within) = .error ⟨before.length, .unclosed⟩ ∧
          Flat within.toList) ∧
      (∀ p, parts script = .error ⟨p, .unclosed⟩ ↔
        ∃ before after, script = before ++ "(" ++ after ∧ before.length = p ∧
          (∃ ps, parts before = .ok ps) ∧ Flat after.toList) ∧
      ∀ fault more, parts script = .error fault → fault.reason ≠ .unclosed →
        parts (script ++ more) = .error fault := by
  refine ⟨?_, fun p => parts_unmatched_iff, fun p => ?_, fun p => parts_unclosed_iff, ?_⟩
  · rw [exists_parts_iff]
    exact (scan_eq_none_iff script.toList 0).1
  · rw [parts_nested_iff]
    constructor
    · rintro ⟨before, after, rfl, hp, start, hopened⟩
      obtain ⟨before, within, rfl, rfl, -, hflat⟩ := parts_unclosed_iff.mp hopened
      exact ⟨before, within, after, rfl, hp, hopened, hflat⟩
    · rintro ⟨before, within, after, h, hp, hopened, -⟩
      exact ⟨before ++ "(" ++ within, after, h, hp, before.length, hopened⟩
  · intro fault more h hreason
    have hscan : scan 0 none script.toList = .error fault := by
      refine (parts_eq_error_iff.mp h).resolve_right ?_
      rintro ⟨start, -, rfl⟩
      exact hreason rfl
    rw [parts_eq_error_iff, String.toList_append]
    exact .inl (scan_append_of_error hscan _)

/-- Offsets count characters, and the second of two opening parentheses is at fault. -/
example : parts "é(a|(b))" = .error ⟨4, .nested⟩ := by decide +kernel

end Script
end Typeahead
