import Mathlib.Algebra.Order.Ring.Nat
import Typeahead.Dictionary.Load
import Typeahead.Proofs.Decoding

/-! # Packed values

What a value may look like as bytes is a relation, since the entries of a table may be written in
any order (`Packed.TableWritten`).  A decoder that recovers every written form of fewer than `n`
bytes (`Decoder.RecoversBelow`) gives one that recovers sequences and tables of such values.  Nodes
are read to a depth that the number of their bytes bounds: an induction on the depth, with one case
for each kind of alternative, shows that this is deep enough (`Node.recovers_alternative`). -/

namespace Typeahead

open Decoder (Recovers Row Writes Approximates)

variable {α : Type}

namespace Decoder

/-- Every written form of fewer than `n` bytes is recovered. -/
def RecoversBelow (n : ℕ) (d : Decoder α) (written : α → List UInt8 → Prop) : Prop :=
  ∀ a bytes, written a bytes → bytes.length < n → Recovers d bytes a

end Decoder

open Decoder (RecoversBelow)

namespace Packed

/-! ### Numbers -/

theorem number_of_lt {n : ℕ} (h : n < 128) : number n = [.ofNat n] := by
  rw [number, if_pos h]

theorem number_of_le {n : ℕ} (h : 128 ≤ n) :
    number n = .ofNat (n % 128 + 128) :: number (n / 128) := by
  rw [number, if_neg (by omega)]

theorem number_ne_nil (n : ℕ) : number n ≠ [] := by
  rcases Nat.lt_or_ge n 128 with h | h
  · simp [number_of_lt h]
  · simp [number_of_le h]

theorem length_number_pos (n : ℕ) : 0 < (number n).length :=
  List.length_pos_iff.mpr (number_ne_nil n)

theorem recovers_lastGroup {last groups n : ℕ} (hn : n < 128) (hlast : groups = 0 → n ≤ last) :
    Recovers (readNumber last (groups + 1)) (number n) n := by
  have hbyte : (UInt8.ofNat n).toNat = n :=
    UInt8.toNat_ofNat_of_lt' (show n < 256 by omega)
  have hlong : ¬ (groups = 0 ∧ last < n) := by
    rintro ⟨hgroups, hlt⟩
    have := hlast hgroups
    omega
  rw [number_of_lt hn, readNumber]
  refine (Decoder.recovers_byte (.ofNat n)).bind_nil ?_
  simp only [hbyte, if_pos hn, if_neg hlong]
  exact Decoder.recovers_pure n

theorem recovers_furtherGroup {last groups n : ℕ} (hn : 128 ≤ n)
    (h : Recovers (readNumber last groups) (number (n / 128)) (n / 128)) :
    Recovers (readNumber last (groups + 1)) (number n) n := by
  have hbyte : (UInt8.ofNat (n % 128 + 128)).toNat = n % 128 + 128 :=
    UInt8.toNat_ofNat_of_lt' (show n % 128 + 128 < 256 by omega)
  have hvalue : n % 128 + 128 - 128 + 128 * (n / 128) = n := by omega
  have hmore : ¬ n % 128 + 128 < 128 := by omega
  have hmap := h.map (n % 128 + 128 - 128 + 128 * ·)
  rw [hvalue] at hmap
  rw [number_of_le hn, readNumber]
  refine (Decoder.recovers_byte (.ofNat (n % 128 + 128))).bind ?_
  simp only [hbyte, if_neg hmore]
  exact hmap

theorem recovers_readNumber {last : ℕ} (hlast : last < 128) :
    ∀ (groups n : ℕ), n < Nat.pow 128 groups * (last + 1) →
      Recovers (readNumber last (groups + 1)) (number n) n
  | 0, n, h => by
      have hle : n ≤ last := by
        rw [show Nat.pow 128 0 = 1 from rfl] at h
        omega
      exact recovers_lastGroup (by omega) fun _ => hle
  | groups + 1, n, h => by
      rcases Nat.lt_or_ge n 128 with hn | hn
      · exact recovers_lastGroup hn fun hgroups => absurd hgroups (Nat.succ_ne_zero groups)
      · refine recovers_furtherGroup hn (recovers_readNumber hlast groups (n / 128) ?_)
        rw [Nat.div_lt_iff_lt_mul (by decide), Nat.mul_right_comm]
        exact h

theorem recovers_length {n : ℕ} (h : n < UInt64.size) : Recovers readLength (number n) n :=
  recovers_readNumber (by decide) 9 n h

theorem recovers_tag {n : ℕ} (h : n < UInt32.size) : Recovers readTag (number n) n :=
  recovers_readNumber (by decide) 4 n h

/-! ### Texts -/

theorem length_text (t : String) :
    (text t).length =
      (number t.toUTF8.data.toList.length).length + t.toUTF8.data.toList.length := by
  unfold text
  rw [List.length_append]

theorem fromUTF8?_toUTF8 (t : String) :
    String.fromUTF8? ⟨t.toUTF8.data.toList.toArray⟩ = some t := by
  have hbytes : (⟨t.toUTF8.data.toList.toArray⟩ : ByteArray) = t.toUTF8 := by
    rw [Array.toArray_toList]
  rw [hbytes]
  exact dif_pos t.isValidUTF8

theorem recovers_text : RecoversBelow UInt64.size readText (Writes text) := by
  rintro t bytes rfl h
  rw [length_text] at h
  unfold readText text
  refine (recovers_length (by omega)).bind ?_
  refine (Decoder.recovers_take t.toUTF8.data.toList).bind_nil ?_
  rw [fromUTF8?_toUTF8]
  exact Decoder.recovers_pure t

/-! ### Sequences and tables -/

section sequences

variable {written : α → List UInt8 → Prop} {d : Decoder α} {n : ℕ}

/-- The written forms of a sequence: the number of its items, and a written form of each. -/
def SequenceWritten (written : α → List UInt8 → Prop) (as : List α) (bytes : List UInt8) : Prop :=
  ∃ row, Row written as row ∧ bytes = number as.length ++ row

/-- The written forms of an entry. -/
def EntryWritten (written : α → List UInt8 → Prop) (e : String × α) (bytes : List UInt8) : Prop :=
  ∃ value, written e.2 value ∧ bytes = text e.1 ++ value

/-- The written forms of a table: its entries may be written in any order. -/
def TableWritten (written : α → List UInt8 → Prop) (t : Table α) (bytes : List UInt8) : Prop :=
  ∃ es, es.Perm t.entries ∧ SequenceWritten (EntryWritten written) es bytes

theorem recovers_sequence (hd : RecoversBelow n d written) (hn : n ≤ UInt64.size)
    (hne : ∀ a bytes, written a bytes → bytes ≠ []) :
    RecoversBelow n (readSequence d) (SequenceWritten written) := by
  rintro as _ ⟨row, hrow, rfl⟩ h
  have hlength := hrow.length_le hne
  rw [List.length_append] at h
  refine (recovers_length (by omega)).bind (Decoder.recovers_times (hrow.imp ?_))
  intro a bytes hwritten hle
  exact hd a bytes hwritten (by omega)

theorem tableWritten_table {value : α → List UInt8} (h : ∀ a, written a (value a)) (t : Table α) :
    TableWritten written t (table value t) := by
  refine ⟨t.entries, .refl _, _, ?_, rfl⟩
  refine (Decoder.row_flatMap (fun e => text e.1 ++ value e.2) t.entries).imp ?_
  rintro e _ rfl -
  exact ⟨value e.2, h e.2, rfl⟩

theorem text_ne_nil (t : String) : text t ≠ [] := by
  unfold text
  simp [number_ne_nil]

theorem recovers_entry (hd : RecoversBelow n d written) (hn : n ≤ UInt64.size) :
    RecoversBelow n (do return (← readText, ← d)) (EntryWritten written) := by
  rintro e _ ⟨value, hvalue, rfl⟩ h
  rw [List.length_append] at h
  refine (recovers_text e.1 (text e.1) rfl (by omega)).bind ?_
  exact (hd e.2 value hvalue (by omega)).map fun a => (e.1, a)

/-- In whatever order its entries are written, a table is recovered. -/
theorem recovers_table (hd : RecoversBelow n d written) (hn : n ≤ UInt64.size) :
    RecoversBelow n (readTable d) (TableWritten written) := by
  rintro t bytes ⟨es, hperm, hwritten⟩ h
  have hne : ∀ e bytes, EntryWritten written e bytes → bytes ≠ [] := by
    rintro e _ ⟨value, -, rfl⟩
    simp [text_ne_nil]
  have hes := recovers_sequence (recovers_entry hd hn) hn hne es bytes hwritten h
  rw [← Table.ofList_of_perm hperm]
  exact hes.map Table.ofList

end sequences

end Packed

namespace Node

open Packed

/-! ### Nodes -/

theorem packAlternative_ne_nil (a : Alternative String) : packAlternative a ≠ [] := by
  cases a <;> simp [packAlternative, number_ne_nil]

theorem row_packItems : ∀ node : Node String,
    Row (Writes packAlternative) node (packItems node)
  | [] => by
      rw [packItems]
      exact .nil
  | a :: node => by
      rw [packItems]
      exact .cons rfl (row_packItems node)

section bounded

variable {n : ℕ} {d : Decoder (Alternative String)} {dn : Decoder (Node String)}

theorem recovers_node (hn : n ≤ UInt64.size)
    (hd : RecoversBelow n d (Writes packAlternative)) :
    RecoversBelow n (readSequence d) (Writes pack) := by
  rintro node _ rfl h
  refine recovers_sequence hd hn ?_ node (pack node) ⟨packItems node, row_packItems node, rfl⟩ h
  rintro a _ rfl
  exact packAlternative_ne_nil a

theorem recovers_continuation (hn : n ≤ UInt64.size)
    (hdn : RecoversBelow n dn (Writes pack)) :
    RecoversBelow n (unpackContinuation dn) (Writes packContinuation) := by
  rintro next _ rfl h
  cases next with
  | nothing =>
      rw [packContinuation, unpackContinuation]
      exact (Decoder.recovers_byte 0).bind_nil (Decoder.recovers_pure _)
  | text t =>
      rw [packContinuation, List.length_cons, List.length_append] at h
      rw [packContinuation, unpackContinuation]
      refine (Decoder.recovers_byte 1).bind ((recovers_tag (by decide)).bind ?_)
      exact (recovers_text t (text t) rfl (by omega)).map Continuation.text
  | node node =>
      rw [packContinuation, List.length_cons, List.length_append] at h
      rw [packContinuation, unpackContinuation]
      refine (Decoder.recovers_byte 1).bind ((recovers_tag (by decide)).bind ?_)
      exact (hdn node (pack node) rfl (by unfold pack; omega)).map Continuation.node

end bounded

/-- An alternative of at most as many bytes as the depth is read to its end. -/
theorem recovers_alternative (depth : ℕ) :
    RecoversBelow (min (depth + 1) UInt64.size) (unpackAlternative depth)
      (Writes packAlternative) := by
  induction depth with
  | zero =>
      -- No alternative is written in less than one byte.
      rintro a _ rfl h
      have := List.length_pos_iff.mpr (packAlternative_ne_nil a)
      omega
  | succ depth ih =>
      have hnode := recovers_node (by omega) ih
      rintro a _ rfl h
      cases a with
      | literal t =>
          rw [packAlternative, List.length_append] at h
          rw [packAlternative, unpackAlternative]
          refine (recovers_tag (by decide)).bind ?_
          exact (recovers_text t (text t) rfl (by omega)).map Alternative.literal
      | nested node =>
          rw [packAlternative, List.length_append] at h
          rw [packAlternative, unpackAlternative]
          have hpos := length_number_pos 1
          refine (recovers_tag (by decide)).bind ?_
          exact (hnode node (pack node) rfl (by unfold pack; omega)).map Alternative.nested
      | reference name next =>
          rw [packAlternative, List.length_append, List.length_append, List.length_append] at h
          rw [packAlternative, unpackAlternative]
          have hpos := length_number_pos 2
          refine (recovers_tag (by decide)).bind ((recovers_tag (by decide)).bind ?_)
          refine (recovers_text name (text name) rfl (by omega)).bind ?_
          have hnext := recovers_continuation (by omega) hnode next _ rfl (by omega)
          exact hnext.map (Alternative.reference name)
      | script t =>
          rw [packAlternative, List.length_append, List.length_append] at h
          rw [packAlternative, unpackAlternative]
          refine (recovers_tag (by decide)).bind ((recovers_tag (by decide)).bind ?_)
          exact (recovers_text t (text t) rfl (by omega)).map Alternative.script

/-! ### The depth to which a node is read -/

theorem approximates_sequence {d d' : Decoder α} (h : Approximates d d') :
    Approximates (readSequence d) (readSequence d') :=
  (Approximates.refl readLength).bind h.times

theorem approximates_continuation {d d' : Decoder (Node String)} (h : Approximates d d') :
    Approximates (unpackContinuation d) (unpackContinuation d') := by
  unfold unpackContinuation
  refine (Approximates.refl Decoder.byte).bind fun b => ?_
  split
  · exact .refl _
  · refine (Approximates.refl readTag).bind fun tag => ?_
    split
    · exact .refl _
    · exact h.bind fun node => .refl _
    · exact .refl _
  · exact .refl _

theorem approximates_alternative : ∀ {m n : ℕ}, m ≤ n →
    Approximates (unpackAlternative m) (unpackAlternative n)
  | 0, _, _ => fun _ => .inr rfl
  | m + 1, 0, h => absurd h (Nat.not_succ_le_zero m)
  | m + 1, n + 1, h => by
      have hnode := approximates_sequence (approximates_alternative (Nat.le_of_succ_le_succ h))
      rw [unpackAlternative, unpackAlternative]
      refine (Approximates.refl readTag).bind fun tag => ?_
      split
      · exact .refl _
      · exact hnode.bind fun node => .refl _
      · refine (Approximates.refl readTag).bind fun tag => ?_
        split
        · refine (Approximates.refl readText).bind fun name => ?_
          exact (approximates_continuation hnode).bind fun next => .refl _
        · exact .refl _
        · exact .refl _
      · exact .refl _

/-- The number of bytes that are left is a depth to which every node in them can be read.  If bytes
are missing, the reader may stop for that or for the depth, and lacks bytes either way. -/
theorem recovers_unpack :
    RecoversBelow UInt64.size unpack (Writes pack) := by
  rintro node _ rfl h
  have hdepth : ∀ depth, (pack node).length ≤ depth →
      Recovers (readSequence (unpackAlternative depth)) (pack node) node := by
    intro depth hle
    exact recovers_node (Nat.min_le_right _ _) (recovers_alternative depth) node _ rfl (by omega)
  refine ⟨?_, ?_⟩
  · intro rest
    have hle : (pack node).length ≤ (pack node ++ rest).length := by
      rw [List.length_append]
      exact Nat.le_add_right _ _
    exact (hdepth _ hle).whole rest
  · intro front hfront hne
    -- `front` is read only as deep as it is long, which may be less than the whole node needs.
    have happrox := approximates_sequence (approximates_alternative hfront.length_le)
    exact happrox.endOfBytes ((hdepth _ (Nat.le_refl _)).cut front hfront hne)

end Node

/-! ### Grammars and dictionaries -/

open Packed

/-- The written forms of a grammar: its branches in any order, and its entry. -/
def Grammar.Written (g : Grammar String) (bytes : List UInt8) : Prop :=
  ∃ branches, TableWritten (Writes Node.pack) g.branches branches ∧
    bytes = branches ++ text g.entry

/-- The written forms of a dictionary: its entries in any order, each of them in any written form,
and its names. -/
def Dictionary.Written (d : Dictionary) (bytes : List UInt8) : Prop :=
  ∃ entries, TableWritten Grammar.Written d.entries entries ∧
    bytes = entries ++ sequence text d.names

theorem Grammar.written_pack (g : Grammar String) : g.Written g.pack :=
  ⟨_, tableWritten_table (Decoder.writes_self Node.pack) g.branches, rfl⟩

theorem Dictionary.written_pack (d : Dictionary) : d.Written d.pack :=
  ⟨_, tableWritten_table Grammar.written_pack d.entries, rfl⟩

theorem Grammar.recovers_unpack : RecoversBelow UInt64.size Grammar.unpack Grammar.Written := by
  rintro g _ ⟨branches, hbranches, rfl⟩ h
  rw [List.length_append] at h
  have htable := recovers_table Node.recovers_unpack (Nat.le_refl _) g.branches branches hbranches
  refine (htable (by omega)).bind ?_
  have hentry := recovers_text g.entry (text g.entry) rfl (by omega)
  exact hentry.map fun entry => (⟨g.branches, entry⟩ : Grammar String)

theorem Dictionary.recovers_unpack :
    RecoversBelow UInt64.size Dictionary.unpack Dictionary.Written := by
  rintro d _ ⟨entries, hentries, rfl⟩ h
  rw [List.length_append] at h
  have htable := recovers_table Grammar.recovers_unpack (Nat.le_refl _) d.entries entries hentries
  have hne : ∀ t bytes, Writes text t bytes → bytes ≠ [] := by
    rintro t _ rfl
    exact text_ne_nil t
  have hnames := recovers_sequence recovers_text (Nat.le_refl _) hne d.names
    (sequence text d.names) ⟨_, Decoder.row_flatMap text d.names, rfl⟩
  refine (htable (by omega)).bind ?_
  exact (hnames (by omega)).map fun names => (⟨d.entries, names⟩ : Dictionary)

/-- **Packing loses nothing.**  A dictionary is read off every written form of it, in whatever order
its entries and the branches in them are written and whatever bytes follow, and so is a grammar.
What `pack` writes is one of these forms.  No list of bytes is so long that its length takes more
than 64 bits. -/
theorem ofBytes_of_written :
    (∀ (d : Dictionary) (bytes rest : List UInt8), d.Written bytes → bytes.length < UInt64.size →
        Dictionary.ofBytes (bytes ++ rest) = .ok d) ∧
      (∀ (g : Grammar String) (bytes rest : List UInt8), g.Written bytes →
        bytes.length < UInt64.size → Grammar.ofBytes (bytes ++ rest) = .ok g) ∧
      (∀ d : Dictionary, d.Written d.pack) ∧ ∀ g : Grammar String, g.Written g.pack := by
  refine ⟨?_, ?_, Dictionary.written_pack, Grammar.written_pack⟩
  · intro d bytes rest hwritten hsize
    have hwhole := (Dictionary.recovers_unpack d bytes hwritten hsize).whole rest
    rw [Dictionary.ofBytes, Decoder.value_of_ok hwhole]
  · intro g bytes rest hwritten hsize
    exact Decoder.value_of_ok ((Grammar.recovers_unpack g bytes hwritten hsize).whole rest)

/-- Two entries, and two branches in one of them, all written against the order of their keys. -/
theorem ofBytes_of_written_pair :
    let greet : Grammar String :=
      ⟨.ofList [("main", [.reference "end" (.text "é")]), ("end", [.nested [.literal "!"]])],
        "main"⟩
    let pick : Grammar String := ⟨.ofList [("main", [.script "(x|y)"])], "main"⟩
    let d : Dictionary := ⟨.ofList [("b", greet), ("a", pick)], ["en"]⟩
    let bytes : List UInt8 :=
      [2, 1, 98, 2, 4, 109, 97, 105, 110, 1, 2, 0, 3, 101, 110, 100, 1, 0, 2, 195, 169,
        3, 101, 110, 100, 1, 1, 1, 0, 1, 33, 4, 109, 97, 105, 110,
        1, 97, 1, 4, 109, 97, 105, 110, 1, 2, 1, 5, 40, 120, 124, 121, 41, 4, 109, 97, 105, 110,
        1, 2, 101, 110]
    d.Written bytes ∧ bytes.length < UInt64.size ∧ Dictionary.ofBytes (bytes ++ [7]) = .ok d := by
  intro greet pick d bytes
  have hbranches : greet.branches.entries =
      [("end", [.nested [.literal "!"]]), ("main", [.reference "end" (.text "é")])] := by
    decide +kernel
  have hentries : d.entries.entries = [("a", pick), ("b", greet)] := by decide +kernel
  have hgreet : greet.Written
      [2, 4, 109, 97, 105, 110, 1, 2, 0, 3, 101, 110, 100, 1, 0, 2, 195, 169,
        3, 101, 110, 100, 1, 1, 1, 0, 1, 33, 4, 109, 97, 105, 110] := by
    refine ⟨_, ⟨[("main", [.reference "end" (.text "é")]), ("end", [.nested [.literal "!"]])],
      hbranches ▸ .swap _ _ [], _, .cons ⟨_, rfl, rfl⟩ (.cons ⟨_, rfl, rfl⟩ .nil), rfl⟩, ?_⟩
    decide +kernel
  have hpick : pick.Written
      [1, 4, 109, 97, 105, 110, 1, 2, 1, 5, 40, 120, 124, 121, 41, 4, 109, 97, 105, 110] := by
    refine ⟨_, ⟨_, .refl _, _, .cons ⟨_, rfl, rfl⟩ .nil, rfl⟩, ?_⟩
    decide +kernel
  have hd : d.Written bytes := by
    refine ⟨_, ⟨[("b", greet), ("a", pick)], hentries ▸ .swap _ _ [], _,
      .cons ⟨_, hgreet, rfl⟩ (.cons ⟨_, hpick, rfl⟩ .nil), rfl⟩, ?_⟩
    decide +kernel
  have hsize : bytes.length < UInt64.size := by decide
  exact ⟨hd, hsize, ofBytes_of_written.1 d bytes [7] hd hsize⟩

end Typeahead
