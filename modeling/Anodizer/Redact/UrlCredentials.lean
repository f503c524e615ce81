import Anodizer.Redact.Mask
import Mathlib.Data.List.DropRight

/-! # Credentials in URLs

The part of an authority before its last `@` is replaced, whatever the environment knows of it.
The input is cut into the texts that are kept and the userinfo parts between them.
-/

namespace Anodizer.Redact

open Template (Text isWhitespace)

/-- The text up to the first `://`, with it, and the text after it. -/
def cutScheme : Text → Option (Text × Text)
  | [] => none
  | c :: cs =>
    if "://".toList.isPrefixOf (c :: cs) then some ("://".toList, (c :: cs).drop 3)
    else (cutScheme cs).map fun found => (c :: found.1, found.2)

def endsAuthority (c : Char) : Bool := c == '/' || c == '?' || c == '#' || isWhitespace c

/-- The userinfo before the last `@`, and the host after it. -/
def cutLastAt (authority : Text) : Option (Text × Text) :=
  if '@' ∈ authority then
    some ((authority.rdropWhile (· ≠ '@')).dropLast, authority.rtakeWhile (· ≠ '@'))
  else none

def placeholder : Text := "<redacted>".toList

/-- The loop of `redactUrlCredentials`, for at most so many URLs. -/
def redactUrls : ℕ → Text → Text
  | 0, rest => rest
  | n + 1, rest =>
    match cutScheme rest with
    | none => rest
    | some (scheme, afterScheme) =>
      let authority := afterScheme.takeWhile (!endsAuthority ·)
      let rest := afterScheme.dropWhile (!endsAuthority ·)
      match cutLastAt authority with
      | some (_, host) => scheme ++ (placeholder ++ '@' :: host) ++ redactUrls n rest
      | none => scheme ++ authority ++ redactUrls n rest

/-- Userinfo parts of URLs are replaced by `<redacted>`. -/
def redactUrlCredentials (input : Text) : Text := redactUrls input.length input

/-- The whole redaction: the credentials of URLs, then the secrets of the environment. -/
def withEnv (u : RedactTables) (input : Text) (env : List (Text × Text)) : Text :=
  string u (redactUrlCredentials input) env

example : redactUrlCredentials "to https://user:p@ssw0rd@a.com/b@c".toList =
    "to https://<redacted>@a.com/b@c".toList := by decide +kernel

/-! ### Cuts -/

section Cuts

variable {s scheme after authority userinfo host : Text}

theorem cutScheme_some (h : cutScheme s = some (scheme, after)) :
    s = scheme ++ after ∧ scheme.getLast? = some '/' := by
  induction s generalizing scheme with
  | nil => cases h
  | cons c cs ih =>
    rw [cutScheme] at h
    split at h
    · next hstarts =>
      obtain ⟨rest, hrest⟩ := List.isPrefixOf_iff_prefix.mp hstarts
      obtain ⟨rfl, rfl⟩ := Prod.mk.inj (Option.some.inj h)
      rw [← hrest]
      exact ⟨rfl, rfl⟩
    · obtain ⟨⟨before, rest⟩, hfound, heq⟩ := Option.map_eq_some_iff.mp h
      obtain ⟨rfl, rfl⟩ := Prod.mk.inj heq
      obtain ⟨rfl, hlast⟩ := ih hfound
      refine ⟨rfl, ?_⟩
      rw [List.getLast?_cons, hlast]
      rfl

theorem cutLastAt_some (h : cutLastAt authority = some (userinfo, host)) :
    authority = userinfo ++ '@' :: host := by
  rw [cutLastAt] at h
  split at h
  · next hmem =>
    obtain ⟨rfl, rfl⟩ := Prod.mk.inj (Option.some.inj h)
    have hne : authority.rdropWhile (· ≠ '@') ≠ [] := by
      intro hnil
      have hall := List.rdropWhile_eq_nil_iff.mp hnil '@' hmem
      simp at hall
    have hlast : (authority.rdropWhile (· ≠ '@')).getLast hne = '@' := by
      simpa using List.rdropWhile_last_not (· ≠ '@') authority hne
    have hback := List.dropLast_append_getLast hne
    rw [hlast] at hback
    calc authority = authority.rdropWhile (· ≠ '@') ++ authority.rtakeWhile (· ≠ '@') :=
          List.rdropWhile_append_rtakeWhile.symm
      _ = _ := by rw [← hback]; simp
  · cases h

end Cuts

/-! ### Parts -/

/-- A text cut into kept texts, each up to a userinfo part, and the kept text after the last. -/
structure UrlParts where
  parts : List (Text × Text)
  last : Text
  deriving DecidableEq, Repr

namespace UrlParts

/-- The text with something else in place of each userinfo part. -/
def fill (f : Text → Text) (last : Text) : List (Text × Text) → Text
  | [] => last
  | (kept, userinfo) :: parts => kept ++ (f userinfo ++ fill f last parts)

/-- The first kept text. -/
def first (last : Text) : List (Text × Text) → Text
  | [] => last
  | (kept, _) :: _ => kept

/-- A userinfo part stands between a `/` and an `@`. -/
inductive Fenced (last : Text) : List (Text × Text) → Prop
  | last : Fenced last []
  | part {kept userinfo : Text} {parts : List (Text × Text)} (slash : kept.getLast? = some '/')
      (at_sign : (first last parts).head? = some '@') (rest : Fenced last parts) :
      Fenced last ((kept, userinfo) :: parts)

end UrlParts

/-- The parts that the loop cuts a text into, after what it kept since the last userinfo part. -/
def urlPartsFrom : ℕ → Text → Text → UrlParts
  | 0, kept, rest => ⟨[], kept ++ rest⟩
  | n + 1, kept, rest =>
    match cutScheme rest with
    | none => ⟨[], kept ++ rest⟩
    | some (scheme, afterScheme) =>
      let authority := afterScheme.takeWhile (!endsAuthority ·)
      let rest := afterScheme.dropWhile (!endsAuthority ·)
      match cutLastAt authority with
      | some (userinfo, host) =>
        let cut := urlPartsFrom n ('@' :: host) rest
        ⟨(kept ++ scheme, userinfo) :: cut.parts, cut.last⟩
      | none => urlPartsFrom n (kept ++ scheme ++ authority) rest

def urlParts (input : Text) : UrlParts := urlPartsFrom input.length [] input

section Parts

open UrlParts

/-- What holds of the end of the loop, and of a round if it holds of the rounds after it. -/
theorem urlPartsFrom_induction {motive : ℕ → Text → Text → UrlParts → Prop}
    (stop : ∀ n kept rest, redactUrls n rest = rest → motive n kept rest ⟨[], kept ++ rest⟩)
    (strip : ∀ n kept scheme userinfo host rest, scheme.getLast? = some '/' →
      redactUrls (n + 1) (scheme ++ (userinfo ++ '@' :: host) ++ rest) =
        scheme ++ (placeholder ++ '@' :: host) ++ redactUrls n rest →
      motive n ('@' :: host) rest (urlPartsFrom n ('@' :: host) rest) →
      motive (n + 1) kept (scheme ++ (userinfo ++ '@' :: host) ++ rest)
        ⟨(kept ++ scheme, userinfo) :: (urlPartsFrom n ('@' :: host) rest).parts,
          (urlPartsFrom n ('@' :: host) rest).last⟩)
    (keep : ∀ n kept scheme authority rest,
      redactUrls (n + 1) (scheme ++ authority ++ rest) = scheme ++ authority ++ redactUrls n rest →
      motive n (kept ++ scheme ++ authority) rest
        (urlPartsFrom n (kept ++ scheme ++ authority) rest) →
      motive (n + 1) kept (scheme ++ authority ++ rest)
        (urlPartsFrom n (kept ++ scheme ++ authority) rest))
    (n : ℕ) (kept rest : Text) : motive n kept rest (urlPartsFrom n kept rest) := by
  induction n generalizing kept rest with
  | zero => exact stop 0 kept rest rfl
  | succ n ih =>
    have hround : redactUrls (n + 1) rest = redactUrls (n + 1) rest := rfl
    conv at hround => rhs; rw [redactUrls]
    rw [urlPartsFrom]
    cases hscheme : cutScheme rest with
    | none =>
      rw [hscheme] at hround
      exact stop (n + 1) kept rest hround
    | some cut =>
      obtain ⟨scheme, afterScheme⟩ := cut
      obtain ⟨hrest, hslash⟩ := cutScheme_some hscheme
      have hafter : afterScheme.takeWhile (!endsAuthority ·) ++
          afterScheme.dropWhile (!endsAuthority ·) = afterScheme := List.takeWhile_append_dropWhile
      rw [← hafter, ← List.append_assoc] at hrest
      rw [hscheme] at hround
      simp only at hround ⊢
      cases hat : cutLastAt (afterScheme.takeWhile (!endsAuthority ·)) with
      | none =>
        rw [hat, hrest] at hround
        rw [hrest]
        exact keep n kept scheme _ _ hround (ih _ _)
      | some cut =>
        obtain ⟨userinfo, host⟩ := cut
        rw [hat, hrest, cutLastAt_some hat] at hround
        rw [hrest, cutLastAt_some hat]
        exact strip n kept scheme userinfo host _ hslash hround (ih _ _)

/-- The parts are the input, and with the placeholder for each userinfo part they are the output. -/
theorem fill_urlPartsFrom (n : ℕ) (kept rest : Text) :
    fill id (urlPartsFrom n kept rest).last (urlPartsFrom n kept rest).parts = kept ++ rest ∧
      fill (fun _ => placeholder) (urlPartsFrom n kept rest).last (urlPartsFrom n kept rest).parts =
        kept ++ redactUrls n rest := by
  induction n, kept, rest using urlPartsFrom_induction with
  | stop n kept rest hstop => exact ⟨rfl, by rw [hstop]; rfl⟩
  | strip n kept scheme userinfo host rest hslash hround ih =>
    refine ⟨?_, ?_⟩
    · rw [fill, ih.1]
      simp
    · rw [fill, ih.2, hround]
      simp
  | keep n kept scheme authority rest hround ih =>
    rw [hround]
    refine ⟨ih.1.trans ?_, ih.2.trans ?_⟩ <;> simp

/-- Every userinfo part stands where the loop found it, and what was kept before is kept. -/
theorem urlPartsFrom_fenced (n : ℕ) (kept rest : Text) :
    Fenced (urlPartsFrom n kept rest).last (urlPartsFrom n kept rest).parts ∧
      kept <+: first (urlPartsFrom n kept rest).last (urlPartsFrom n kept rest).parts := by
  induction n, kept, rest using urlPartsFrom_induction with
  | stop n kept rest hstop => exact ⟨.last, List.prefix_append kept rest⟩
  | strip n kept scheme userinfo host rest hslash hround ih =>
    obtain ⟨hfenced, more, hmore⟩ := ih
    refine ⟨.part ?_ ?_ hfenced, List.prefix_append kept scheme⟩
    · rw [List.getLast?_append, hslash]
      rfl
    · rw [← hmore]
      rfl
  | keep n kept scheme authority rest hround ih =>
    refine ⟨ih.1, List.IsPrefix.trans ?_ ih.2⟩
    rw [List.append_assoc]
    exact List.prefix_append kept _

theorem fill_input (input : Text) :
    fill id (urlParts input).last (urlParts input).parts = input :=
  (fill_urlPartsFrom input.length [] input).1

theorem fill_output (input : Text) :
    fill (fun _ => placeholder) (urlParts input).last (urlParts input).parts =
      redactUrlCredentials input :=
  (fill_urlPartsFrom input.length [] input).2

theorem urlParts_fenced (input : Text) : Fenced (urlParts input).last (urlParts input).parts :=
  (urlPartsFrom_fenced input.length [] input).1

/-- The loop ends by itself: more rounds than characters change nothing. -/
theorem redactUrls_enough {n : ℕ} {rest : Text} (h : rest.length ≤ n) :
    redactUrls n rest = redactUrlCredentials rest := by
  suffices hall : ∀ {k}, rest.length ≤ k → redactUrls n rest = redactUrls k rest from hall le_rfl
  induction n generalizing rest with
  | zero =>
    intro k hk
    obtain rfl := List.length_eq_zero_iff.mp (Nat.le_zero.mp h)
    cases k <;> rfl
  | succ n ih =>
    intro k hk
    cases k with
    | zero =>
      obtain rfl := List.length_eq_zero_iff.mp (Nat.le_zero.mp hk)
      rfl
    | succ k =>
      rw [redactUrls, redactUrls]
      cases hscheme : cutScheme rest with
      | none => rfl
      | some cut =>
        obtain ⟨scheme, afterScheme⟩ := cut
        obtain ⟨rfl, hslash⟩ := cutScheme_some hscheme
        have hpos : 0 < scheme.length := List.length_pos_iff.mpr (by rintro rfl; simp at hslash)
        have hlen := (List.dropWhile_suffix (!endsAuthority ·) (l := afterScheme)).length_le
        rw [List.length_append] at h hk
        have hrest : redactUrls n (afterScheme.dropWhile (!endsAuthority ·)) =
            redactUrls k (afterScheme.dropWhile (!endsAuthority ·)) := ih (by omega) (by omega)
        simp only [hrest]

end Parts

end Anodizer.Redact
