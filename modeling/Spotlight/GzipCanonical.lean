import Spotlight.GzipBuild
import Spotlight.StoredInflate

/-! Runs of index requests: what earlier requests stopped at leaves no trace in the list of
access points. -/
namespace Spotlight.Gzip
open Bytes Zlib

/-- A build goes on from the last access point, or from the front of the file. -/
def Resumable (reader : GzipReader) : Prop := reader.list ≠ [] ∨ reader.pos = 0

variable {z : Library} {m : Member} {fuel : ℕ} {reader : GzipReader} {last : Option ℤ}

theorem readerInv_open (m : Member) : ReaderInv m ⟨m.file, 0, []⟩ := by
  refine ⟨rfl, fun entry he => ?_, fun entry he => ?_⟩
  · cases he
  · cases he

theorem request_ok (h : Decompresses z m) (hr : ReaderInv m reader) (hstart : Resumable reader)
    {stack : List UInt8} (hstack : stack.length = windowSize) (max : ℤ)
    (hf : enoughFuel m < fuel) :
    ∃ ret reader', checkAndBuildIndex z fuel reader stack max = .ok (ret, reader') ∧
      ReaderInv m reader' ∧ Served m reader'.list max := by
  obtain ⟨ret, reader', hrun, hinv, -, hserved⟩ := checkAndBuildIndex_ok h hr hstart hstack max hf
    (P := fun _ => True) (fun _ _ _ _ _ _ _ _ _ _ _ => trivial) trivial
  exact ⟨ret, reader', hrun, hinv, hserved⟩

theorem indexed_isPrefix {list : List GzipAccessPointEntry} (hi : Indexed m list) :
    list.map GzipAccessPointEntry.point <+: canonicalPoints m := by
  cases hlast : list.getLast? with
  | none =>
    rw [List.getLast?_eq_none_iff.mp hlast]
    exact List.nil_prefix
  | some entry =>
    obtain ⟨i, -, -, hpoints⟩ := hi entry hlast
    obtain ⟨rest, hsplit, -⟩ := canonicalPoints_split m (i + 1)
    rw [hpoints, hsplit]
    exact List.prefix_append _ _

def GzipReader.points (reader : GzipReader) : List Boundary :=
  reader.list.map GzipAccessPointEntry.point

/-- A first request far behind the content passes over the whole file, and finds exactly the
canonical points. -/
theorem onePass_points (h : Decompresses z m) (hf : enoughFuel m < fuel) {stack : List UInt8}
    (hstack : stack.length = windowSize) {max : ℤ} (hmax : m.content.length + span ≤ max) :
    ∃ ret reader', checkAndBuildIndex z fuel ⟨m.file, 0, []⟩ stack max = .ok (ret, reader') ∧
      reader'.points = canonicalPoints m := by
  obtain ⟨ret, reader', hrun, -, hserved⟩ :=
    request_ok h (readerInv_open m) (Or.inr rfl) hstack max hf
  exact ⟨ret, reader', hrun, hserved.all hmax⟩

end Spotlight.Gzip
