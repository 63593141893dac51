import Typeahead.Proofs.Packing

/-! # Caches

A load that finds a cache reports what stands in it and leaves the disk as it is (`load_of_cache`).
What the laws of packed bytes say about a list of bytes is therefore what a load says that finds
them. -/

namespace Typeahead

theorem Disk.pathExists_of_read {disk : Disk} {path : Path} {bytes : List UInt8}
    (h : disk.read path = .ok bytes) : disk.pathExists path = true := by
  unfold Disk.read at h
  unfold Disk.pathExists
  cases hlocate : disk.locate path with
  | ok address => rfl
  | error error =>
      rw [hlocate] at h
      cases h

theorem Path.stem?_of_cache? {path cache : Path} (h : path.cache? = some cache) :
    ∃ name, path.stem? = some name := by
  unfold Path.cache? at h
  obtain ⟨name, hname, -⟩ := Option.map_eq_some_iff.mp h
  exact ⟨name, hname⟩

namespace Dictionary

variable {disk : Disk} {path cache : Path}

theorem readCache_of_read {bytes : List UInt8} (h : disk.read cache = .ok bytes) :
    readCache disk cache = ofBytes bytes := by
  show ofDisk (disk.read cache) >>= ofBytes = ofBytes bytes
  rw [h]
  rfl

theorem load_of_cache {name : String} {bytes : List UInt8} (hname : path.stem? = some name)
    (hcache : path.cache? = some cache) (hread : disk.read cache = .ok bytes) :
    load disk path = ((·.addName name) <$> ofBytes bytes, disk) := by
  unfold load
  simp only [hname, hcache]
  rw [if_pos (Disk.pathExists_of_read hread), readCache_of_read hread]

theorem ofBytes_of_cut {d : Dictionary} {bytes front : List UInt8} (hwritten : d.Written bytes)
    (hsize : bytes.length < UInt64.size) (hfront : front <+: bytes) (hne : front ≠ bytes) :
    ofBytes front = .error (.cache .endOfBytes) := by
  have hcut := (recovers_unpack d bytes hwritten hsize).cut front hfront hne
  rw [ofBytes, Decoder.value_of_error hcut]

/-- **A cache that was cut off is detected.**  If bytes are missing at the end of a cache, wherever
it was cut, then a load reports that they are, and loads nothing.  No list of bytes is so long that
its length takes more than 64 bits. -/
theorem load_of_cut {d : Dictionary} {bytes front : List UInt8} (hwritten : d.Written bytes)
    (hsize : bytes.length < UInt64.size) (hfront : front <+: bytes) (hne : front ≠ bytes)
    (hcache : path.cache? = some cache) (hread : disk.read cache = .ok front) :
    load disk path = (.error (.cache .endOfBytes), disk) ∧
      (DictionaryError.cache .endOfBytes).message =
        "binary cache error: Hit the end of buffer, expected more data" := by
  refine ⟨?_, rfl⟩
  obtain ⟨name, hname⟩ := Path.stem?_of_cache? hcache
  rw [load_of_cache hname hcache hread, ofBytes_of_cut hwritten hsize hfront hne]
  rfl

/-- A cache that was cut off within a letter of two bytes. -/
theorem load_of_cut_letter :
    let d : Dictionary := ⟨.ofList [("a", ⟨.ofList [("main", [.literal "é"])], "main"⟩)], []⟩
    let front : List UInt8 := [1, 1, 97, 1, 4, 109, 97, 105, 110, 1, 0, 2, 195]
    let bytes : List UInt8 := front ++ [169, 4, 109, 97, 105, 110, 0]
    let disk : Disk := ⟨[], [(["en.bin"], .file front)], by decide⟩
    let path : Path := ⟨true, ["en.json"]⟩
    let cache : Path := ⟨true, ["en.bin"]⟩
    d.Written bytes ∧ bytes.length < UInt64.size ∧ front <+: bytes ∧ front ≠ bytes ∧
      path.cache? = some cache ∧ disk.read cache = .ok front ∧
      load disk path = (.error (.cache .endOfBytes), disk) := by
  intro d front bytes disk path cache
  have hwritten : d.Written bytes := by
    have hpack : d.pack = bytes := by decide +kernel
    exact hpack ▸ d.written_pack
  have hsize : bytes.length < UInt64.size := by decide
  have hfront : front <+: bytes := List.prefix_append front _
  have hne : front ≠ bytes := by decide
  have hcache : path.cache? = some cache := by decide +kernel
  have hread : disk.read cache = .ok front := by decide +kernel
  exact ⟨hwritten, hsize, hfront, hne, hcache, hread,
    (load_of_cut hwritten hsize hfront hne hcache hread).1⟩

end Dictionary

end Typeahead
