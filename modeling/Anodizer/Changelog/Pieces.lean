import Anodizer.Changelog.ReleasedNotes
import Anodizer.Lib.Partition
import Mathlib.Data.List.SplitBy

/-! # Bullets with their wrapped lines

A subsection is made of bullets, each with the wrapped lines behind it. Such a piece goes to its
group as a whole.
-/

namespace Anodizer.Changelog

open Template (Text)
open Partition

variable {line : Text} {piece curated : List Text} {pieces : List (List Text)} {s : Buckets}
  {compiled : List Compiled}

def isBullet (line : Text) : Bool := (stripListMarker line).isSome

/-- The bullets with the lines behind them, and the lines before the first bullet. -/
def bulletPieces (curated : List Text) : List (List Text) :=
  curated.splitBy fun _ next => !isBullet next

/-- The group of a piece is that of its first line. -/
def pieceGroup (compiled : List Compiled) (piece : List Text) : Option ℕ :=
  piece.head?.bind (groupOf compiled)

/-! ### One piece -/

def Buckets.putAll (s : Buckets) (piece : List Text) : Option ℕ → Buckets
  | some i => { s with buckets := s.buckets.modify i (· ++ piece) }
  | none => { s with unmatched := s.unmatched ++ piece }

theorem putAll_cons (s : Buckets) (line : Text) (piece : List Text) (o : Option ℕ) :
    (s.put line o).putAll piece o = s.putAll (line :: piece) o := by
  cases o with
  | none => simp [Buckets.put, Buckets.putAll]
  | some i =>
    simp only [Buckets.put, Buckets.putAll, List.modify_modify_eq, Function.comp_def,
      List.append_assoc, List.singleton_append]

/-- Wrapped lines go where the last bullet went. -/
theorem foldl_push_wrapped (h : ∀ line ∈ piece, isBullet line = false) (s : Buckets) :
    piece.foldl (Buckets.push compiled) s = s.putAll piece s.last := by
  induction piece generalizing s with
  | nil =>
    have hself : ∀ o, s.putAll [] o = s := by
      intro o
      cases o with
      | none => simp [Buckets.putAll]
      | some i =>
        have hid : s.buckets.modify i (· ++ []) = s.buckets := by
          simp only [List.append_nil]
          exact List.modify_id i s.buckets
        rw [Buckets.putAll, hid]
    exact (hself s.last).symm
  | cons line piece ih =>
    obtain ⟨hline, hpiece⟩ := List.forall_mem_cons.mp h
    have hnone : stripListMarker line = none := by simpa [isBullet] using hline
    have hpush : s.push compiled line = s.put line s.last := by rw [Buckets.push, hnone]
    rw [List.foldl_cons, hpush, ih hpiece, put_last, putAll_cons]

/-- A piece: one line, and wrapped lines behind it. -/
def IsPiece (piece : List Text) : Prop :=
  piece ≠ [] ∧ ∀ line ∈ piece.tail, isBullet line = false

/-- A piece goes to its group as a whole. -/
theorem foldl_push_piece (h : IsPiece piece)
    (hs : piece.head?.any isBullet ∨ s.last = none) :
    piece.foldl (Buckets.push compiled) s =
      { s.putAll piece (pieceGroup compiled piece) with last := pieceGroup compiled piece } := by
  obtain ⟨hne, htail⟩ := h
  obtain ⟨line, rest, rfl⟩ := List.exists_cons_of_ne_nil hne
  have hpush : s.push compiled line =
      { s.put line (groupOf compiled line) with last := groupOf compiled line } := by
    rw [Buckets.push, groupOf]
    cases hstrip : stripListMarker line with
    | some raw => rfl
    | none =>
      have hlast : s.last = none := hs.resolve_left (by simp [isBullet, hstrip])
      rw [hlast, Option.bind_none, Buckets.put, ← hlast]
  rw [List.tail_cons] at htail
  rw [List.foldl_cons, foldl_push_wrapped htail, hpush, pieceGroup, List.head?_cons,
    Option.bind_some, ← putAll_cons]
  cases groupOf compiled line <;> rfl

/-! ### All pieces -/

theorem lines_putAll (s : Buckets) (piece : List Text) {o : Option ℕ}
    (ho : ∀ j ∈ o, j < s.buckets.length) (i : ℕ) :
    (s.putAll piece o).lines i = s.lines i ++ if o = some i then piece else [] := by
  cases o with
  | none => simp [Buckets.putAll, Buckets.lines]
  | some j =>
    have hj := ho j rfl
    rw [Buckets.putAll, Buckets.lines, Buckets.lines, List.getElem?_modify]
    by_cases hij : j = i
    · subst hij
      simp [List.getElem?_eq_getElem hj]
    · simp [hij]

theorem unmatched_putAll (s : Buckets) (piece : List Text) (o : Option ℕ) :
    (s.putAll piece o).unmatched = s.unmatched ++ if o = none then piece else [] := by
  cases o <;> simp [Buckets.putAll]

theorem length_putAll (s : Buckets) (piece : List Text) (o : Option ℕ) :
    (s.putAll piece o).buckets.length = s.buckets.length := by
  cases o with
  | none => rfl
  | some i => exact List.length_modify ..

/-- The pieces of a group, and those of none, are in the order of the subsection. -/
structure Sorted (compiled : List Compiled) (pieces : List (List Text)) (s s' : Buckets) : Prop where
  lines : ∀ i, s'.lines i = s.lines i ++ (bucket (pieceGroup compiled) pieces i).flatten
  unmatched : s'.unmatched =
    s.unmatched ++ (pieces.filter fun piece => pieceGroup compiled piece = none).flatten

theorem pieceGroup_lt {j : ℕ} (h : pieceGroup compiled piece = some j) : j < compiled.length := by
  obtain ⟨line, -, hline⟩ := Option.bind_eq_some_iff.mp h
  obtain ⟨raw, -, hraw⟩ := Option.bind_eq_some_iff.mp hline
  exact classify_lt hraw

/-- Only the first piece may be without a bullet, and only where no bullet came before. -/
theorem sorted_foldl (hpieces : ∀ piece ∈ pieces, IsPiece piece)
    (hbullets : ∀ piece ∈ pieces.tail, piece.head?.any isBullet)
    (hs : s.buckets.length = compiled.length)
    (hfirst : ∀ piece ∈ pieces.head?, piece.head?.any isBullet ∨ s.last = none) :
    Sorted compiled pieces s (pieces.flatten.foldl (Buckets.push compiled) s) := by
  induction pieces generalizing s with
  | nil => exact ⟨fun i => by simp [bucket], by simp⟩
  | cons piece pieces ih =>
    obtain ⟨hpiece, hrest⟩ := List.forall_mem_cons.mp hpieces
    have hlt : ∀ j ∈ pieceGroup compiled piece, j < s.buckets.length :=
      fun j hj => hs ▸ pieceGroup_lt hj
    rw [List.flatten_cons, List.foldl_append, foldl_push_piece hpiece (hfirst piece rfl)]
    have hsorted := @ih { s.putAll piece (pieceGroup compiled piece) with
        last := pieceGroup compiled piece } hrest
      (fun p hp => hbullets p (List.mem_of_mem_tail hp)) ((length_putAll ..).trans hs)
      (fun p hp => .inl (hbullets p (List.mem_of_mem_head? hp)))
    constructor
    · intro i
      have hlines := lines_putAll s piece hlt i
      refine (hsorted.lines i).trans ?_
      change (s.putAll piece (pieceGroup compiled piece)).lines i ++ _ = _
      rw [hlines, bucket, bucket, List.filter_cons]
      by_cases hi : pieceGroup compiled piece = some i <;> simp [hi]
    · refine hsorted.unmatched.trans ?_
      change (s.putAll piece (pieceGroup compiled piece)).unmatched ++ _ = _
      rw [unmatched_putAll, List.filter_cons]
      by_cases hi : pieceGroup compiled piece = none <;> simp [hi]

theorem isChain_right {q : Text → Bool} {l : List Text}
    (h : l.IsChain fun _ next => q next) : ∀ x ∈ l.tail, q x := by
  induction l with
  | nil => exact fun x hx => by cases hx
  | cons a l ih =>
    cases l with
    | nil => exact fun x hx => by cases hx
    | cons b l =>
      obtain ⟨hb, hl⟩ := List.isChain_cons_cons.mp h
      exact List.forall_mem_cons.mpr ⟨hb, ih hl⟩

theorem isPiece_of_mem (h : piece ∈ bulletPieces curated) : IsPiece piece := by
  refine ⟨List.ne_nil_of_mem_splitBy h, fun line hline => ?_⟩
  have hchain := List.isChain_of_mem_splitBy (r := fun _ next => !isBullet next) h
  simpa using isChain_right hchain line hline

theorem flatten_bulletPieces (curated : List Text) : (bulletPieces curated).flatten = curated :=
  List.flatten_splitBy ..

/-- Every piece but the first starts with a bullet. -/
theorem head_of_mem_tail (h : piece ∈ (bulletPieces curated).tail) : piece.head?.any isBullet := by
  have hchain := List.isChain_getLast_head_splitBy (fun _ next => !isBullet next) curated
  change (bulletPieces curated).IsChain _ at hchain
  generalize bulletPieces curated = pieces at h hchain
  induction pieces with
  | nil => cases h
  | cons p pieces ih =>
    cases pieces with
    | nil => cases h
    | cons p' pieces =>
      obtain ⟨⟨_, hne, hhead⟩, hrest⟩ := List.isChain_cons_cons.mp hchain
      rcases List.mem_cons.mp h with rfl | h
      · rw [List.head?_eq_some_head hne]
        simpa using hhead
      · exact ih h hrest

theorem sorted_bucketed (compiled : List Compiled) (curated : List Text) :
    Sorted compiled (bulletPieces curated) (emptyBuckets compiled) (bucketed compiled curated) := by
  have hsorted := @sorted_foldl (bulletPieces curated) (emptyBuckets compiled) compiled
    (fun piece hpiece => isPiece_of_mem hpiece) (fun piece hpiece => head_of_mem_tail hpiece)
    (List.length_map ..) (fun piece _ => .inr rfl)
  rwa [flatten_bulletPieces] at hsorted

theorem title_of_headOf {i : ℕ} (hi : i < compiled.length) (h : line ∈ headOf compiled s i) :
    ∃ c ∈ compiled, line = h3 ++ c.2.title := by
  rw [headOf] at h
  split at h
  · cases h
  · refine ⟨compiled[i], List.getElem_mem hi, ?_⟩
    rw [List.mem_singleton.mp h, groupTitle, List.getElem?_eq_getElem hi]
    rfl

/-- The released lines are the pieces and the headings of the groups, each as a whole and once. -/
theorem bucketLines_pieces (compiled : List Compiled) (curated : List Text) :
    ∃ (heads : List Text) (parts : List (List Text)),
      (∀ head ∈ heads, ∃ c ∈ compiled, head = h3 ++ c.2.title) ∧
      parts.Perm (heads.map ([·]) ++ bulletPieces curated) ∧
      bucketLines compiled curated = parts.flatten := by
  obtain ⟨hlines, hunmatched⟩ := sorted_bucketed compiled curated
  simp only [emptyBuckets_lines, List.nil_append] at hlines
  have hempty : (emptyBuckets compiled).unmatched = [] := rfl
  rw [hempty, List.nil_append] at hunmatched
  let indexed := (List.range compiled.length).mergeSort
    fun i j => decide (orderKey compiled i ≤ orderKey compiled j)
  have hindexed : indexed.Perm (List.range compiled.length) := List.mergeSort_perm ..
  have hemit : bucketLines compiled curated =
      indexed.flatMap (fun i => headOf compiled (bucketed compiled curated) i ++
        (bucketed compiled curated).lines i) ++ (bucketed compiled curated).unmatched := by
    simp only [← emitGroup_eq]
    rfl
  simp only [hlines, hunmatched] at hemit
  generalize bucketed compiled curated = s at hemit
  generalize bulletPieces curated = pieces at hemit
  let groupPieces := bucket (pieceGroup compiled) pieces
  refine ⟨indexed.flatMap (headOf compiled s),
    indexed.flatMap (fun i => (headOf compiled s i).map ([·]) ++ groupPieces i) ++
      pieces.filter fun piece => pieceGroup compiled piece = none, ?_, ?_, ?_⟩
  · intro head hhead
    obtain ⟨i, hi, hhead⟩ := List.mem_flatMap.mp hhead
    exact title_of_headOf (List.mem_range.mp (hindexed.mem_iff.mp hi)) hhead
  · have hsplit := (List.flatMap_append_perm indexed
      (fun i => (headOf compiled s i).map ([·])) groupPieces).symm
    have hgroups : (indexed.flatMap groupPieces).Perm
        (pieces.filter fun piece => (pieceGroup compiled piece).isSome) :=
      (hindexed.flatMap_right groupPieces).trans
        (flatMap_bucket_perm_of_mem List.nodup_range fun piece _ i hi =>
          List.mem_range.mpr (pieceGroup_lt hi))
    have hall : (indexed.flatMap groupPieces ++
        pieces.filter fun piece => pieceGroup compiled piece = none).Perm pieces := by
      refine (hgroups.append_right _).trans ?_
      have hnone : (pieces.filter fun piece => pieceGroup compiled piece = none) =
          pieces.filter fun piece => !(pieceGroup compiled piece).isSome := by
        refine List.filter_congr fun piece _ => ?_
        cases pieceGroup compiled piece <;> rfl
      rw [hnone]
      exact List.filter_append_perm ..
    rw [List.map_flatMap]
    refine (hsplit.append_right _).trans ?_
    rw [List.append_assoc]
    exact hall.append_left _
  · have hheads : ∀ heads : List Text, (heads.map ([·])).flatten = heads := by
      intro heads
      induction heads with
      | nil => rfl
      | cons head heads ih => rw [List.map_cons, List.flatten_cons, ih, List.singleton_append]
    rw [hemit, List.flatten_append, List.flatMap_def, List.flatMap_def, List.flatten_flatten,
      List.map_map]
    simp only [Function.comp_def, List.flatten_append, hheads, groupPieces]

end Anodizer.Changelog
