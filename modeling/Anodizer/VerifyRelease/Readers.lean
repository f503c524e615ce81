import Anodizer.Git.Spelling
import Anodizer.VerifyRelease.Packages
import Anodizer.VerifyRelease.Newc

/-! # The files of a deb, and the three readers

The scan of an archive of ar ends on all bytes, and finds an uncompressed member of files.
-/

namespace Anodizer.VerifyRelease

open Checked
open Elf (usizeBits)
open Template (Text)
open Walk (Next walk)

variable {bs pre rest : Bytes} {pos : ℕ}

/-! ### Archives of ar -/

section Ar

variable {codecs : Codecs}

/-- The error names what failed. -/
def Failed {α : Type} (r : Except Stop α) : Prop := ∃ message, r = .error (.failed message)

theorem context_runs {α : Type} (message : String) (o : Option α) :
    (∃ a, o = some a ∧ context message o = .ok a) ∨ Failed (context message o) := by
  cases o with
  | none => exact .inr ⟨_, rfl⟩
  | some a => exact .inl ⟨a, rfl, rfl⟩

theorem decompressDataTar_runs (name : Text) (member : Bytes) :
    (∃ out, decompressDataTar codecs name member = .ok out) ∨
      Failed (decompressDataTar codecs name member) := by
  have hmap : ∀ (message : String) (o : Option Bytes), (∃ out, (context message o).map some = .ok out) ∨
      Failed ((context message o).map some) := by
    intro message o
    cases o with
    | none => exact .inr ⟨_, rfl⟩
    | some a => exact .inl ⟨_, rfl⟩
  unfold decompressDataTar
  split
  · exact .inl ⟨_, rfl⟩
  split
  · exact hmap _ _
  split
  · exact hmap _ _
  split
  · exact hmap _ _
  split <;> exact .inl ⟨_, rfl⟩

/-- A pass reads in the archive, and ends at most one byte behind it. -/
theorem arPass_runs (codecs : Codecs) (hlen : bs.length < 2 ^ 63) (hpos : pos ≤ bs.length + 1) :
    (∃ next, arPass codecs bs pos () = .ok next ∧ ∀ pos' s', next = .on pos' s' →
      pos < pos' ∧ pos' ≤ bs.length + 1 ∧ pos ≤ bs.length) ∨ Failed (arPass codecs bs pos ()) := by
  have hadd : add usizeBits pos 60 = .ok (pos + 60) := add_of_lt (by rw [usizeBits]; omega)
  rw [arPass, hadd]
  simp only [checked, Except.mapError, Bind.bind, Except.bind]
  by_cases hshort : bs.length < pos + 60
  · rw [if_pos hshort]
    exact .inl ⟨_, rfl, by simp⟩
  rw [if_neg hshort, slice_of_le (by omega) (by omega)]
  have hheader : ((bs.drop pos).take (pos + 60 - pos)).length = 60 := by
    rw [List.length_take, List.length_drop]
    omega
  generalize (bs.drop pos).take (pos + 60 - pos) = header at hheader ⊢
  simp only [slice_of_le (Nat.zero_le 16) (show 16 ≤ header.length by omega),
    slice_of_le (show 48 ≤ 58 by decide) (show 58 ≤ header.length by omega)]
  generalize memberName ((header.drop 0).take (16 - 0)) = name
  rcases context_runs "verify-release: parse ar member size in .deb"
    (memberSize ((header.drop 48).take (58 - 48))) with ⟨size, -, hsize⟩ | ⟨message, hsize⟩
  swap
  · rw [hsize]
    exact .inr ⟨message, rfl⟩
  rw [hsize]
  dsimp only
  rcases context_runs "verify-release: ar member size overruns .deb"
    ((checkedAdd usizeBits (pos + 60) size).filter (· ≤ bs.length)) with
    ⟨dataEnd, hfilter, hend⟩ | ⟨message, hend⟩
  swap
  · rw [hend]
    exact .inr ⟨message, rfl⟩
  obtain ⟨hsome, hle⟩ := Option.filter_eq_some_iff.mp hfilter
  obtain rfl := eq_of_checkedAdd hsome
  have hle := of_decide_eq_true hle
  rw [hend]
  dsimp only
  rw [slice_of_le (by omega) hle]
  dsimp only
  rcases decompressDataTar_runs name
    ((bs.drop (pos + 60)).take (pos + 60 + size - (pos + 60))) with ⟨out, hout⟩ | ⟨message, hout⟩
  swap
  · rw [hout]
    exact .inr ⟨message, rfl⟩
  rw [hout]
  cases out with
  | some decompressed => exact .inl ⟨_, rfl, by simp⟩
  | none =>
    have hodd := Nat.mod_lt size (show 2 > 0 by decide)
    have hnext : add usizeBits (pos + 60 + size) (size % 2) = .ok (pos + 60 + size + size % 2) :=
      add_of_lt (by rw [usizeBits]; omega)
    dsimp only
    rw [hnext]
    refine .inl ⟨_, rfl, ?_⟩
    rintro pos' s' hon
    obtain ⟨rfl, -⟩ := Next.on.inj hon
    omega

theorem arPass_advances (codecs : Codecs) (hlen : bs.length < 2 ^ 63) :
    Walk.Advances (arPass codecs bs) bs.length := by
  intro pos s pos' s' hstep
  have hpos : pos ≤ bs.length := by
    by_contra hpos
    rw [arPass] at hstep
    cases hadd : add usizeBits pos 60 with
    | error e => simp [hadd, checked, Except.mapError, Bind.bind, Except.bind] at hstep
    | ok r =>
      have hshort : bs.length < r := by
        rw [eq_of_add hadd]
        omega
      simp [hadd, checked, Except.mapError, Bind.bind, Except.bind, hshort, Pure.pure,
        Except.pure] at hstep
  rcases arPass_runs codecs hlen (show pos ≤ bs.length + 1 by omega) with
    ⟨next, hnext, hon⟩ | ⟨message, hfailed⟩
  · rw [hstep] at hnext
    obtain ⟨hlt, -, hle⟩ := hon pos' s' (Except.ok.inj hnext).symm
    exact ⟨hlt, hle⟩
  · rw [hstep] at hfailed
    cases hfailed

/-- A scan ends on all bytes, with a result or an error that names what failed. -/
theorem findDataTar_runs (codecs : Codecs) (hlen : bs.length < 2 ^ 63) :
    ∃ r, findDataTar codecs bs = some r ∧ ((∃ out, r = .ok out) ∨ Failed r) := by
  rw [findDataTar]
  split
  · exact ⟨_, rfl, .inl ⟨none, rfl⟩⟩
  next hmagic =>
  have hpre : arMagic <+: bs := by simpa using hmagic
  obtain ⟨r, hr⟩ := Option.isSome_iff_exists.mp
    (Walk.walk_isSome (arPass_advances codecs hlen) arMagic.length ())
  refine ⟨r, hr, ?_⟩
  refine Walk.run_cases (I := fun pos _ => pos ≤ bs.length + 1)
    (P := fun r => (∃ out, r = .ok out) ∨ Failed r) ?_ (fun _ _ out _ _ => .inl ⟨out, rfl⟩) ?_
    (Nat.le_succ_of_le hpre.length_le) hr
  · intro pos s e hpos hstep
    rcases arPass_runs codecs hlen hpos with ⟨next, hnext, -⟩ | ⟨message, hfailed⟩
    · rw [hstep] at hnext
      cases hnext
    · rw [hstep] at hfailed
      exact .inr ⟨message, congrArg _ (Except.error.inj hfailed)⟩
  · intro pos s pos' s' hpos hstep
    rcases arPass_runs codecs hlen hpos with ⟨next, hnext, hon⟩ | ⟨message, hfailed⟩
    · rw [hstep] at hnext
      exact (hon pos' s' (Except.ok.inj hnext).symm).2.1
    · rw [hstep] at hfailed
      cases hfailed

/-! ### Members of ar -/

/-- A number of at most ten digits, with spaces behind it. -/
def sizeText (n : ℕ) : Text := Nat.toDigits 10 n ++ List.replicate (10 - (Nat.toDigits 10 n).length) ' '

/-- A member of an archive. The fields that are not read hold anything. -/
structure ArMember where
  name : Bytes
  dateToMode : Bytes
  terminator : Bytes
  data : Bytes
  length_name : name.length = 16
  length_dateToMode : dateToMode.length = 32
  length_terminator : terminator.length = 2
  data_lt : data.length < 10 ^ 10

theorem not_isWhitespace_of_isDigit {c : Char} (h : c.isDigit) : Template.isWhitespace c = false := by
  obtain ⟨hle, hge⟩ := Char.isDigit_iff_toNat.mp h
  have hzero : '0'.toNat = 48 := rfl
  have hnine : '9'.toNat = 57 := rfl
  rw [Bool.eq_false_iff]
  intro hspace
  simp only [Template.isWhitespace, Bool.or_eq_true, Bool.and_eq_true, decide_eq_true_eq,
    beq_iff_eq] at hspace
  omega

theorem trim_sizeText (n : ℕ) : Template.trim (sizeText n) = Nat.toDigits 10 n := by
  have hdigit : ∀ c ∈ Nat.toDigits 10 n, Template.isWhitespace c = false := fun c hc =>
    not_isWhitespace_of_isDigit (Git.isDigit_toDigits hc)
  have hstart : ∀ {t s : Text}, t ≠ [] → (∀ c ∈ t, Template.isWhitespace c = false) →
      Template.trimStart (t ++ s) = t ++ s := by
    intro t s hne ht
    obtain ⟨c, t, rfl⟩ := List.exists_cons_of_ne_nil hne
    exact List.dropWhile_cons_of_neg (by simp [ht c List.mem_cons_self])
  have hne : Nat.toDigits 10 n ≠ [] := Nat.toDigits_ne_nil
  have hspaces : Template.trimStart ((List.replicate (10 - (Nat.toDigits 10 n).length) ' ') ++
      (Nat.toDigits 10 n).reverse) = Template.trimStart (Nat.toDigits 10 n).reverse :=
    List.dropWhile_append_of_pos fun c hc => List.eq_of_mem_replicate hc ▸ rfl
  have hback : Template.trimStart (Nat.toDigits 10 n).reverse = (Nat.toDigits 10 n).reverse := by
    have hall := hstart (s := []) (List.reverse_ne_nil_iff.mpr hne)
      fun c hc => hdigit c (List.mem_reverse.mp hc)
    rwa [List.append_nil] at hall
  rw [Template.trim, sizeText, hstart hne hdigit, List.reverse_append, List.reverse_replicate,
    hspaces, hback, List.reverse_reverse]

theorem length_sizeText {n : ℕ} (hn : n < 10 ^ 10) : (sizeText n).length = 10 := by
  have hle : (Nat.toDigits 10 n).length ≤ 10 :=
    (Nat.length_toDigits_le_iff (by decide) (by decide)).mpr hn
  rw [sizeText, List.length_append, List.length_replicate]
  omega

theorem ascii_sizeText (n : ℕ) : Utf8.Ascii (sizeText n) := by
  refine Utf8.Ascii.append (fun c hc => ?_) (Utf8.ascii_replicate (by decide) _)
  have hle := (Char.isDigit_iff_toNat.mp (Git.isDigit_toDigits hc)).2
  exact Nat.lt_of_le_of_lt hle (by decide)

theorem memberSize_sizeText {n : ℕ} (hn : n < 10 ^ 10) :
    memberSize (Utf8.encode (sizeText n)) = some n := by
  rw [memberSize, Utf8.decode_encode, Option.bind_some, trim_sizeText]
  exact Git.parseU64_toDigits (Nat.lt_trans hn (by decide))

namespace ArMember

def header (m : ArMember) : Bytes :=
  m.name ++ (m.dateToMode ++ (Utf8.encode (sizeText m.data.length) ++ m.terminator))

/-- Members start at even places. -/
def bytes (m : ArMember) : Bytes :=
  m.header ++ (m.data ++ List.replicate (m.data.length % 2) 0x0a)

variable (m : ArMember)

theorem length_sizeField : (Utf8.encode (sizeText m.data.length)).length = 10 := by
  rw [Utf8.length_encode (ascii_sizeText _), length_sizeText m.data_lt]

theorem length_header : m.header.length = 60 := by
  simp [header, m.length_name, m.length_dateToMode, m.length_sizeField, m.length_terminator]

theorem length_bytes : m.bytes.length = 60 + m.data.length + m.data.length % 2 := by
  simp only [bytes, List.length_append, m.length_header, List.length_replicate]
  omega

end ArMember

/-- What a pass over a member comes to. The last byte of the archive may be missing. -/
theorem arPass_member {m : ArMember} (codecs : Codecs) (hlen : bs.length < 2 ^ 63)
    (h : bs = pre ++ (m.header ++ (m.data ++ rest))) (hpre : pre.length = pos) :
    arPass codecs bs pos () = (decompressDataTar codecs (memberName m.name) m.data).map fun out =>
      match out with
      | some decompressed => .done (some decompressed)
      | none => .on (pos + m.bytes.length) () := by
  have hbytes := m.length_bytes
  have hodd := Nat.mod_lt m.data.length (show 2 > 0 by decide)
  have htotal : bs.length = pos + (60 + (m.data.length + rest.length)) := by
    rw [h, List.length_append, List.length_append, List.length_append, hpre, m.length_header]
  have hadd : add usizeBits pos 60 = .ok (pos + 60) := add_of_lt (by rw [usizeBits]; omega)
  have hheader : slice bs pos (pos + 60) = .ok m.header :=
    slice_of_append h hpre (by rw [m.length_header])
  have hname : slice m.header 0 16 = .ok m.name :=
    slice_of_append (show m.header = [] ++ (m.name ++ _) from rfl) rfl (by rw [m.length_name])
  have hsize : slice m.header 48 58 = .ok (Utf8.encode (sizeText m.data.length)) :=
    slice_of_append (show m.header = (m.name ++ m.dateToMode) ++
      (Utf8.encode (sizeText m.data.length) ++ m.terminator) by
        rw [ArMember.header, List.append_assoc])
      (by rw [List.length_append, m.length_name, m.length_dateToMode]) (by rw [m.length_sizeField])
  have hsum : checkedAdd usizeBits (pos + 60) m.data.length = some (pos + 60 + m.data.length) :=
    checkedAdd_of_lt (by rw [usizeBits]; omega)
  have hend : (checkedAdd usizeBits (pos + 60) m.data.length).filter (· ≤ bs.length) =
      some (pos + 60 + m.data.length) := by
    rw [hsum]
    exact if_pos (decide_eq_true (by omega))
  have hdata : slice bs (pos + 60) (pos + 60 + m.data.length) = .ok m.data := by
    have hcut : bs = (pre ++ m.header) ++ (m.data ++ rest) := by rw [h, List.append_assoc]
    exact slice_of_append hcut (by rw [List.length_append, hpre, m.length_header]) rfl
  have hnext : add usizeBits (pos + 60 + m.data.length) (m.data.length % 2) =
      .ok (pos + m.bytes.length) := by
    rw [add_of_lt (by rw [usizeBits]; omega), hbytes]
    exact congrArg _ (by omega)
  rw [arPass, hadd]
  simp only [checked, Except.mapError, Bind.bind, Except.bind, hheader, hname, hsize,
    memberSize_sizeText m.data_lt, context, hend, hdata, hnext]
  rw [if_neg (by omega)]
  cases decompressDataTar codecs (memberName m.name) m.data with
  | error e => rfl
  | ok out => cases out <;> rfl

/-- A name that starts with a text starts with its bytes. -/
theorem prefix_of_memberName {t : Text} {field : Bytes} (h : t <+: memberName field) (hne : t ≠ []) :
    Utf8.encode t <+: field := by
  rw [memberName] at h
  cases hdecode : Utf8.decode field with
  | none =>
    simp only [hdecode, Option.getD_none, List.rdropWhile_nil] at h
    exact absurd (List.prefix_nil.mp h) hne
  | some s =>
    simp only [hdecode, Option.getD_some] at h
    obtain ⟨r, rfl⟩ := h.trans ((List.rdropWhile_prefix _ _).trans (List.rdropWhile_prefix _ _))
    rw [← Utf8.encode_of_decode hdecode, Utf8.encode_append]
    exact List.prefix_append _ _

theorem decompressDataTar_other {name : Bytes} (data : Bytes)
    (h : ¬ Utf8.encode "data.tar".toList <+: name) :
    decompressDataTar codecs (memberName name) data = .ok none := by
  refine if_pos fun hprefix => h ?_
  exact prefix_of_memberName (List.isPrefixOf_iff_prefix.mp hprefix) (by decide)

/-- The name of the uncompressed member, with or without slashes behind it. -/
def dataTarName (slashes : ℕ) : Text :=
  "data.tar".toList ++ (List.replicate slashes '/' ++ List.replicate (8 - slashes) ' ')

theorem memberName_dataTar (slashes : Fin 9) :
    memberName (Utf8.encode (dataTarName slashes)) = "data.tar".toList := by
  rw [memberName, Utf8.decode_encode]
  revert slashes
  decide

theorem decompressDataTar_dataTar (data : Bytes) :
    decompressDataTar codecs "data.tar".toList data = .ok (some data) := by
  rfl

/-- An archive whose first member of files is not compressed, with anything behind it. -/
structure ArArchive where
  before : List ArMember
  slashes : Fin 9
  dataTar : ArMember
  rest : Bytes
  before_name : ∀ m ∈ before, ¬ Utf8.encode "data.tar".toList <+: m.name
  dataTar_name : dataTar.name = Utf8.encode (dataTarName slashes)

def ArArchive.bytes (a : ArArchive) : Bytes :=
  arMagic ++ (a.before.flatMap ArMember.bytes ++ (a.dataTar.header ++ (a.dataTar.data ++ a.rest)))

theorem walk_arMembers {ms : List ArMember} {t : ArMember} (pre : Bytes)
    (hlen : bs.length < 2 ^ 63)
    (hms : ∀ m ∈ ms, ¬ Utf8.encode "data.tar".toList <+: m.name)
    (ht : memberName t.name = "data.tar".toList)
    (h : bs = pre ++ (ms.flatMap ArMember.bytes ++ (t.header ++ (t.data ++ rest)))) :
    walk (arPass codecs bs) bs.length pre.length () = some (.ok (some t.data)) := by
  induction ms generalizing pre with
  | nil =>
    have hpass := arPass_member codecs hlen h rfl
    rw [ht, decompressDataTar_dataTar] at hpass
    exact Walk.walk_done hpass
  | cons m ms ih =>
    obtain ⟨hm, hms⟩ := List.forall_mem_cons.mp hms
    have hcut : bs = pre ++ (m.header ++ (m.data ++ (List.replicate (m.data.length % 2) 0x0a ++
        (ms.flatMap ArMember.bytes ++ (t.header ++ (t.data ++ rest)))))) := by
      rw [h, List.flatMap_cons, ArMember.bytes]
      simp only [List.append_assoc]
    have hpass := arPass_member codecs hlen hcut rfl
    rw [decompressDataTar_other _ hm] at hpass
    have hpre : pre.length + m.bytes.length = (pre ++ m.bytes).length := List.length_append.symm
    rw [Walk.walk_on (arPass_advances codecs hlen) hpass, hpre]
    exact ih (pre ++ m.bytes) hms (by rw [h, List.flatMap_cons]; simp only [List.append_assoc])

theorem findDataTar_archive (codecs : Codecs) (a : ArArchive) (hlen : a.bytes.length < 2 ^ 63) :
    findDataTar codecs a.bytes = some (.ok (some a.dataTar.data)) := by
  have hmagic : arMagic.isPrefixOf a.bytes :=
    List.isPrefixOf_iff_prefix.mpr (List.prefix_append _ _)
  rw [findDataTar, if_neg (not_not.mpr hmagic)]
  exact walk_arMembers arMagic hlen a.before_name
    (by rw [a.dataTar_name, memberName_dataTar]) rfl

end Ar

/-- No bytes make a reader fault or run on, and what a package is laid out to hold is found. -/
theorem readers_spec (codecs : Codecs) :
    (∀ bs : Bytes, bs.length < 2 ^ 63 →
      (∃ out, findPayload bs = .ok out) ∧ (∃ out, largestElfInCpioNewc bs = some (.ok out)) ∧
      ∃ r, findDataTar codecs bs = some r ∧ ∀ f, r ≠ .error (.fault f)) ∧
    (∀ r : Rpm, r.bytes.length < 2 ^ 63 → findPayload r.bytes = .ok (some r.payload)) ∧
    (∀ a : CpioArchive, a.bytes.length < 2 ^ 63 →
      ∃ out, largestElfInCpioNewc a.bytes = some (.ok out) ∧
        (out = none ↔ ∀ m ∈ a.members, ¬ isElf m.data) ∧
        ∀ data, out = some data ↔ ∃ before after,
          a.members.map NewcMember.data = before ++ data :: after ∧ isElf data ∧
            (∀ x ∈ before, isElf x → x.length < data.length) ∧
            ∀ x ∈ after, isElf x → x.length ≤ data.length) ∧
    ∀ a : ArArchive, a.bytes.length < 2 ^ 63 →
      findDataTar codecs a.bytes = some (.ok (some a.dataTar.data)) := by
  refine ⟨fun bs hlen => ⟨findPayload_runs hlen, largestElfInCpioNewc_runs hlen, ?_⟩,
    findPayload_rpm, fun a hlen => ⟨_, largestElfInCpioNewc_archive a hlen, ?_,
      fun data => argmax_filter_iff⟩, findDataTar_archive codecs⟩
  · obtain ⟨r, hr, hend⟩ := findDataTar_runs codecs hlen
    refine ⟨r, hr, ?_⟩
    rintro f rfl
    rcases hend with ⟨out, hout⟩ | ⟨message, hfailed⟩
    · cases hout
    · cases hfailed
  · rw [List.argmax_eq_none]
    simp

end Anodizer.VerifyRelease
