import Mathlib.Data.Set.Insert
import Typeahead.Proofs.CacheName
import Typeahead.Proofs.Outcome
import Typeahead.Proofs.Pieces

/-! # Disks that gain files

What a path finds in a folder is decided by what stands there under its last name
(`Disk.Leads.locate_eq`), so that two disks on which the path leads into the folder differ for it
only in that (`Disk.Leads.read_congr`).  A disk grows if files are added where nothing stood
(`Disk.Grows`).  A path that leads to a folder still does on the grown disk, because every folder
that it passes was there before (`Disk.Grows.opens`).  A file that is written where none stood is
added in its folder (`Disk.Leads.write_missing`). -/

namespace Typeahead
namespace Disk

open Typeahead.Path (IsName isIdle)

/-! ### What stands where -/

theorem lookup_filter_ne {address b : Address} (h : b ≠ address) (l : List (Address × Entry)) :
    (l.filter fun e => decide (e.1 ≠ address)).lookup b = l.lookup b := by
  induction l with
  | nil => rfl
  | cons e l ih =>
      rw [List.filter_cons]
      split_ifs with he
      · rw [List.lookup_cons, List.lookup_cons, ih]
      · have hne : (b == e.1) = false := by
          rw [beq_eq_false_iff_ne]
          rintro rfl
          simp [h] at he
        rw [ih, List.lookup_cons, hne]

theorem find?_put_self {address : Address} (h : address ≠ []) (d : Disk) (entry : Entry) :
    (d.put address entry).find? address = some entry := by
  unfold find? put
  rw [if_neg h, List.lookup_cons_self]

theorem find?_put_of_ne {address b : Address} (h : b ≠ address) (d : Disk) (entry : Entry) :
    (d.put address entry).find? b = d.find? b := by
  unfold find? put
  split_ifs
  · rfl
  · simp only [List.lookup_cons, beq_eq_false_iff_ne.mpr h, lookup_filter_ne h]

/-! ### Following segments -/

theorem walk_append (d : Disk) (a : Address) (s t : List String) :
    d.walk a (s ++ t) = d.walk a s >>= fun b => d.walk b t := by
  induction s generalizing a with
  | nil => rw [List.nil_append, walk]; rfl
  | cons segment s ih =>
      rw [List.cons_append, walk, walk]
      cases d.find? a with
      | none => rfl
      | some entry =>
          cases entry with
          | file bytes => rfl
          | folder =>
              dsimp only
              split_ifs
              · exact ih a
              · exact ih a.dropLast
              · rfl
              · rfl
              · exact ih (a ++ [segment])

theorem walk_of_idle {d : Disk} {a : Address} (hfolder : d.find? a = some .folder) :
    ∀ {segments : List String}, (∀ s ∈ segments, isIdle s = true) → d.walk a segments = .ok a
  | [], _ => by rw [walk]
  | segment :: rest, h => by
      obtain ⟨hidle, hrest⟩ := List.forall_mem_cons.mp h
      rw [walk, hfolder]
      simp only [hidle, if_true]
      exact walk_of_idle hfolder hrest

theorem eq_of_walk_idle {d : Disk} {a b : Address} :
    ∀ {segments : List String}, (∀ s ∈ segments, isIdle s = true) → d.walk a segments = .ok b →
      b = a
  | [], _, h => by
      rw [walk] at h
      exact (Except.ok.inj h).symm
  | segment :: rest, hidle, h => by
      obtain ⟨hsegment, hrest⟩ := List.forall_mem_cons.mp hidle
      rw [walk] at h
      split at h
      · cases h
      · cases h
      · rw [if_pos hsegment] at h
        exact eq_of_walk_idle hrest h

theorem walk_name {d : Disk} {a : Address} {name : String} (hname : IsName name)
    (hfolder : d.find? a = some .folder) :
    d.walk a [name] =
      if maxName < name.utf8ByteSize then .error .nameTooLong
      else if d.find? (a ++ [name]) = none then .error .notFound
      else .ok (a ++ [name]) := by
  rw [walk, hfolder]
  simp only [hname.1, Bool.false_eq_true, if_false, if_neg hname.2, walk]

/-! ### Folders -/

/-- The path leads to a folder, which stands at the address. -/
def Opens (d : Disk) (folder : Path) (address : Address) : Prop :=
  d.walk (d.start folder) folder.segments = .ok address ∧ d.find? address = some .folder

variable {d d' : Disk} {folder p : Path} {address : Address} {segments : List String}
variable {name : String}

/-- Idle segments at the end of a path do not matter. -/
theorem walk_of_walk_append {a b : Address} {idle : List String}
    (hidle : ∀ s ∈ idle, isIdle s = true) (h : d.walk a (segments ++ idle) = .ok b) :
    d.walk a segments = .ok b := by
  rw [walk_append] at h
  obtain ⟨c, hc, h⟩ := bind_eq_ok_iff.mp h
  rw [hc, eq_of_walk_idle hidle h]

theorem Opens.walk_inside (h : d.Opens folder address) :
    d.walk (d.start folder) folder.inside = .ok address := by
  unfold Path.inside
  split_ifs with hlast
  · have hidle : ∀ s ∈ [""], isIdle s = true := by decide
    refine walk_of_walk_append hidle ?_
    rw [List.dropLast_append_getLast? _ hlast]
    exact h.1
  · exact h.1

theorem Opens.walk_beside (h : d.Opens folder address) :
    d.walk (d.start folder) folder.beside = .ok address := by
  have hsettled : d.walk (d.start folder) (Path.settle folder.inside) = .ok address := by
    have hidle : ∀ s ∈ folder.inside.rtakeWhile isIdle, isIdle s = true :=
      fun s hs => List.mem_rtakeWhile_imp hs
    refine walk_of_walk_append hidle ?_
    rw [show Path.settle folder.inside = folder.inside.rdropWhile isIdle from rfl,
      List.rdropWhile_append_rtakeWhile]
    exact h.walk_inside
  unfold Path.beside
  split_ifs with hdot
  · -- A path of idle segments leads where it begins, and so does a single dot.
    rw [hdot.1, walk] at hsettled
    rw [Except.ok.inj hsettled]
    exact walk_of_idle h.2 (by decide)
  · exact hsettled

/-! ### What stands in a folder -/

/-- The path leads to a folder, which stands at the address, and on from there along a name. -/
structure Leads (d : Disk) (p : Path) (address : Address) (name : String) : Prop where
  above : ∃ segments, p.segments = segments ++ [name] ∧ d.walk (d.start p) segments = .ok address
  folder : d.find? address = some .folder
  isName : IsName name

theorem Opens.leads_file (h : d.Opens folder address) (hname : IsName name) :
    d.Leads (folder.file name) address name := by
  rw [Path.file_eq]
  exact ⟨⟨folder.inside, rfl, h.walk_inside⟩, h.2, hname⟩

theorem Opens.leads_cache (h : d.Opens folder address) (name : String) :
    d.Leads (folder.cacheOf name) address (Path.cacheName name) :=
  ⟨⟨folder.beside, rfl, h.walk_beside⟩, h.2, Path.isName_cacheName name⟩

/-- What a path finds in a folder depends on what stands there under its last name, and on nothing
else that may change. -/
theorem Leads.locate_eq (h : d.Leads p address name) :
    d.locate p =
      if p.text.toList.contains '\x00' then .error .nullCharacter
      else if maxPath < p.text.utf8ByteSize ∨ maxName < name.utf8ByteSize then .error .nameTooLong
      else if d.find? (address ++ [name]) = none then .error .notFound
      else .ok (address ++ [name]) := by
  obtain ⟨above, hsegments, hwalk⟩ := h.above
  have htext : p.text ≠ "" := by
    intro hempty
    rw [Path.text, hsegments, String.append_eq_empty_iff] at hempty
    exact intercalate_ne_empty (by simp) h.isName.ne_empty _ hempty.2
  unfold locate
  rw [if_neg htext, hsegments, walk_append, hwalk]
  show (if _ then _ else if _ then _ else d.walk address [name]) = _
  rw [walk_name h.isName h.folder]
  split_ifs <;> first | rfl | omega

section congruence

variable (h : d.Leads p address name) (h' : d'.Leads p address name)
variable (hsame : d'.find? (address ++ [name]) = d.find? (address ++ [name]))

include h h' hsame

theorem Leads.locate_congr : d'.locate p = d.locate p := by
  rw [h'.locate_eq, h.locate_eq, hsame]

theorem Leads.pathExists_congr : d'.pathExists p = d.pathExists p := by
  unfold pathExists
  rw [h.locate_congr h' hsame]

theorem Leads.read_congr : d'.read p = d.read p := by
  have hfound : ∀ b, d.locate p = .ok b → b = address ++ [name] := by
    intro b hb
    rw [h.locate_eq] at hb
    split_ifs at hb
    exact (Except.ok.inj hb).symm
  unfold read
  rw [h.locate_congr h' hsame]
  cases hlocate : d.locate p with
  | error error => rfl
  | ok b => simp only [bind, Except.bind, hfound b hlocate, hsame]

theorem Leads.readText_congr : d'.readText p = d.readText p := by
  unfold readText
  rw [h.read_congr h' hsame]

end congruence

theorem Leads.exists_of_pathExists (h : d.Leads p address name) (hexists : d.pathExists p = true) :
    d.locate p = .ok (address ++ [name]) ∧ d.find? (address ++ [name]) ≠ none := by
  unfold pathExists at hexists
  rw [h.locate_eq] at hexists ⊢
  split_ifs at hexists ⊢ with hnull hlong hnone
  exact ⟨rfl, hnone⟩

theorem read_of_locate {b : Address} {bytes : List UInt8} (hlocate : d.locate p = .ok b)
    (hfile : d.find? b = some (.file bytes)) : d.read p = .ok bytes := by
  unfold read
  simp only [hlocate, bind, Except.bind, hfile]
  rfl

/-- What is written along a path into a folder depends on what stands there under its last name. -/
theorem Leads.write_eq (h : d.Leads p address name) (bytes : List UInt8) :
    d.write p bytes =
      if p.text.toList.contains '\x00' then .error .nullCharacter
      else if maxPath < p.text.utf8ByteSize ∨ maxName < name.utf8ByteSize then .error .nameTooLong
      else if d.find? (address ++ [name]) = some .folder then .error .isFolder
      else .ok (d.put (address ++ [name]) (.file bytes)) := by
  obtain ⟨above, hsegments, hwalk⟩ := h.above
  unfold write
  rw [h.locate_eq]
  split_ifs with hnull hlong hnone hfolder hfolder
  · rfl
  · rfl
  · rw [hnone] at hfolder
    cases hfolder
  · simp only [hsegments, List.getLast?_concat, List.dropLast_concat, hwalk, h.isName.1,
      Bool.false_eq_true, h.isName.2, or_self, if_false, bind, Except.bind]
    rfl
  · simp only [hfolder]
  · cases hfind : d.find? (address ++ [name]) with
    | none => exact absurd hfind hnone
    | some entry =>
        cases entry with
        | file old => simp only [hfind]
        | folder => exact absurd hfind hfolder

/-- A file that is written where a path finds nothing is added in the folder of that path. -/
theorem Leads.write_missing {bytes : List UInt8} (h : d.Leads p address name)
    (hmissing : d.pathExists p = false) (hwrite : d.write p bytes = .ok d') :
    d.find? (address ++ [name]) = none ∧ d' = d.put (address ++ [name]) (.file bytes) := by
  rw [h.write_eq] at hwrite
  unfold pathExists at hmissing
  rw [h.locate_eq] at hmissing
  split_ifs at hmissing hwrite with hnull hlong hnone
  exact ⟨hnone, (Except.ok.inj hwrite).symm⟩

/-! ### Adding files -/

/-- The second disk is the first one with files added at addresses of a set, where the first one
has nothing. -/
structure Grows (new : Set Address) (d d' : Disk) : Prop where
  home : d'.home = d.home
  kept : ∀ b ∉ new, d'.find? b = d.find? b
  free : ∀ b ∈ new, d.find? b = none

variable {new : Set Address}

theorem Grows.refl (hfree : ∀ b ∈ new, d.find? b = none) : d.Grows new d :=
  ⟨rfl, fun _ _ => rfl, hfree⟩

theorem Grows.put (h : d.Grows new d') {b : Address} (hb : b ∈ new) (entry : Entry) :
    d.Grows new (d'.put b entry) := by
  refine ⟨h.home, ?_, h.free⟩
  intro c hc
  have hne : c ≠ b := by
    rintro rfl
    exact hc hb
  rw [find?_put_of_ne hne, h.kept c hc]

theorem grows_put {b : Address} (hnone : d.find? b = none) (entry : Entry) :
    d.Grows {b} (d.put b entry) := by
  refine (Grows.refl ?_).put (Set.mem_singleton b) entry
  rintro c rfl
  exact hnone

theorem Grows.find?_eq (h : d.Grows new d') {b : Address} (hb : d.find? b ≠ none) :
    d'.find? b = d.find? b :=
  h.kept b fun hmem => hb (h.free b hmem)

/-- A path that leads somewhere leads there on the grown disk. -/
theorem Grows.walk_of_ok (h : d.Grows new d') {b : Address} :
    ∀ {a : Address} {segments : List String}, d.walk a segments = .ok b →
      d'.walk a segments = .ok b
  | a, [], hwalk => by
      rw [walk] at hwalk ⊢
      exact hwalk
  | a, segment :: rest, hwalk => by
      rw [walk] at hwalk ⊢
      cases hfind : d.find? a with
      | none =>
          rw [hfind] at hwalk
          cases hwalk
      | some entry =>
          rw [h.find?_eq (by simp [hfind])]
          cases entry with
          | file bytes =>
              rw [hfind] at hwalk
              cases hwalk
          | folder =>
              simp only [hfind] at hwalk ⊢
              split_ifs at hwalk ⊢ with hidle hup hlong hmissing hnone
              · exact h.walk_of_ok hwalk
              · exact h.walk_of_ok hwalk
              · rw [h.find?_eq hnone] at hmissing
                exact absurd hmissing hnone
              · exact h.walk_of_ok hwalk

theorem Grows.opens (h : d.Grows new d') (hopens : d.Opens folder address) :
    d'.Opens folder address := by
  refine ⟨?_, ?_⟩
  · rw [start, h.home]
    exact h.walk_of_ok hopens.1
  · rw [h.find?_eq (by simp [hopens.2]), hopens.2]

end Disk
end Typeahead
