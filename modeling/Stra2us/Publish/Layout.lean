import Stra2us.Publish.Assets

namespace Stra2us.Publish

open Foundation Server

section Keys

variable {app n m : Text}

theorem bytesKey_eq (app filename : Text) :
    bytesKey app filename = "_catalog/".toList ++ (app ++ ("/_assets/".toList ++ filename)) :=
  (List.append_assoc _ _ _).trans (List.append_assoc _ _ _)

theorem indexKey_eq (app : Text) :
    indexKey app = "_catalog/".toList ++ (app ++ "/_assets_index".toList) :=
  List.append_assoc _ _ _

theorem yamlKey_eq (app : Text) : yamlKey app = "_catalog/".toList ++ app := rfl

theorem metaKey_eq (app filename : Text) :
    metaKey app filename = bytesKey app (filename ++ ".meta".toList) :=
  List.append_assoc _ _ _

theorem bytesKey_flag (app n : Text) :
    bytesKey app n ++ ":enc".toList = bytesKey app (n ++ ":enc".toList) :=
  List.append_assoc _ _ _

theorem bytesKey_inj : bytesKey app n = bytesKey app m ↔ n = m :=
  ⟨fun h => List.append_cancel_left h, fun h => by rw [h]⟩

-- What is stored besides the assets, and the flags of it, is under other keys than theirs.
theorem bytesKey_ne_yamlKey : bytesKey app n ≠ yamlKey app := by
  rw [bytesKey_eq, yamlKey_eq]
  simp

theorem bytesKey_ne_yamlKey_flag : bytesKey app n ≠ yamlKey app ++ ":enc".toList := by
  rw [bytesKey_eq, yamlKey_eq]
  simp

theorem bytesKey_ne_indexKey : bytesKey app n ≠ indexKey app := by
  rw [bytesKey_eq, indexKey_eq]
  simp

theorem bytesKey_ne_indexKey_flag : bytesKey app n ≠ indexKey app ++ ":enc".toList := by
  rw [bytesKey_eq, indexKey_eq]
  simp

theorem indexKey_ne_yamlKey : indexKey app ≠ yamlKey app := by
  rw [indexKey_eq, yamlKey_eq]
  simp

theorem indexKey_ne_yamlKey_flag : indexKey app ≠ yamlKey app ++ ":enc".toList := by
  rw [indexKey_eq, yamlKey_eq]
  simp

theorem yamlKey_ne_indexKey_flag : yamlKey app ≠ indexKey app ++ ":enc".toList := by
  rw [indexKey_eq, yamlKey_eq]
  simp

theorem key_ne_flag (key : Text) : key ≠ key ++ ":enc".toList := by
  simp

end Keys

section Names

variable {filename : Text}

theorem colon_not_mem (h : LintedName filename) : ':' ∉ filename := by
  intro hmem
  exact absurd (List.all_eq_true.mp h.1 _ hmem) (by decide)

theorem suffix_append_meta (h : filename ≠ []) :
    suffix (filename ++ ".meta".toList) = ".meta".toList := by
  have hreverse : (filename ++ ".meta".toList).reverse =
      'a' :: 't' :: 'e' :: 'm' :: '.' :: filename.reverse := by simp
  obtain ⟨last, init, hlast⟩ := List.exists_cons_of_ne_nil (List.reverse_ne_nil_iff.mpr h)
  rw [suffix, hreverse, hlast]
  rfl

-- No sidecar has the name of an asset.
theorem ne_append_meta (h : LintedName filename) (other : Text) :
    filename ≠ other ++ ".meta".toList := by
  rintro rfl
  obtain ⟨-, hhead, -, htype⟩ := h
  cases other with
  | nil => exact hhead rfl
  | cons first rest =>
      rw [contentTypeFor, suffix_append_meta (List.cons_ne_nil first rest)] at htype
      exact absurd htype (by decide)

theorem ne_append_flag (h : LintedName filename) (other : Text) :
    filename ≠ other ++ ":enc".toList := by
  rintro rfl
  exact colon_not_mem h (List.mem_append_right _ (by decide))

end Names

end Stra2us.Publish
