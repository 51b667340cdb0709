import DebianKernel.Debian.AbiName

/-!
# The parts of a Linux version

`VersionLinux` matches a version with two expressions, and the parts of both are used
together. `process_changelog` decides from the kind of the revision where a version may be
uploaded to.

Results:
1. `first_versionLinuxRe`: the split that the second expression finds.
2. `first_versionRe`: the first expression cuts at the same hyphen.
3. `versionLinux_parts`: the parts make up the version, and what each suite admits.
-/

namespace DebianKernel.Debian

open Pattern

/-- `\d+`. -/
def Digits (t : Text) : Prop := t ≠ [] ∧ ∀ c ∈ t, c.isDigit = true

/-- `\d+(\.\d+)?`. -/
inductive PlainRevision : Text → Prop
  | major {n : Text} : Digits n → PlainRevision n
  | minor {n m : Text} : Digits n → Digits m → PlainRevision (n ++ '.' :: m)

/-- `\d+\.\d+`. -/
def IsLinuxVersion (t : Text) : Prop := ∃ n m, Digits n ∧ Digits m ∧ t = n ++ '.' :: m

/-- `(?:\.\d+)?(?:-[a-z]+\d+)?`. -/
def IsUpdate (t : Text) : Prop :=
  ∃ stable pre : Text, t = stable ++ pre ∧
    (stable = [] ∨ ∃ n, Digits n ∧ stable = '.' :: n) ∧
    (pre = [] ∨ ∃ name n : Text, name ≠ [] ∧ (∀ c ∈ name, 'a' ≤ c ∧ c ≤ 'z') ∧ Digits n ∧
      pre = '-' :: (name ++ n))

/-- A revision that continues with `~expN` to its end. -/
def ExperimentalRevision (revision : Text) : Prop :=
  ∃ plain n, PlainRevision plain ∧ Digits n ∧ revision = plain ++ "~exp" ++ n

/-- A revision that continues with `~bpoNN+N` to its end. -/
def BackportsRevision (revision : Text) : Prop :=
  ∃ plain n m, PlainRevision plain ∧ Digits n ∧ n.length = 2 ∧ Digits m ∧
    revision = plain ++ "~bpo" ++ n ++ "+" ++ m

/-- The version is its parts. -/
structure LinuxParts (s : Text) (v : VersionLinux) (update revision : Text) : Prop where
  complete : v.complete = s
  parts : s = v.linuxVersion ++ update ++ v.linuxModifier.elim [] ('~' :: ·) ++
    v.linuxDfsg.elim [] ((".dfsg." : Text) ++ ·) ++ '-' :: revision
  linuxVersion : IsLinuxVersion v.linuxVersion
  isUpdate : IsUpdate update
  upstreamFull : v.linuxUpstreamFull = v.linuxUpstream ++ update
  someRevision : v.revision = some revision
  /-- The revision is what follows the last hyphen. -/
  upstream : s = v.upstream ++ '-' :: revision ∧ '-' ∉ revision
  oneKind : ¬ (v.linuxRevisionExperimental ∧ v.linuxRevisionBackports) ∧
    ¬ (v.linuxRevisionExperimental ∧ v.linuxRevisionOther) ∧
    ¬ (v.linuxRevisionBackports ∧ v.linuxRevisionOther)
  plain : ¬ (v.linuxRevisionExperimental ∨ v.linuxRevisionBackports ∨ v.linuxRevisionOther) ↔
    PlainRevision revision

/-- The suites to which a version with that revision is admitted. -/
structure Admitted (distribution revision : Text) : Prop where
  unstable : distribution = "unstable" → PlainRevision revision
  experimental : distribution = "experimental" → ExperimentalRevision revision
  backports : ("-backports" : Text).isSuffixOf distribution → BackportsRevision revision

namespace LinuxVersionLemmas

/-! ## The revision -/

/-- `~exp\d+`. -/
def expRe : Pattern Nat := do lit "~exp"; let _ ← run1 Char.isDigit; pure 0

/-- `~bpo\d\d\+\d+`. -/
def bpoRe : Pattern Nat := do
  lit "~bpo"
  let n ← run1 Char.isDigit
  look fun _ => n.length = 2
  lit "+"
  let _ ← run1 Char.isDigit
  pure 1

/-- `[^-]+`. -/
def otherRe : Pattern Nat := do let _ ← run1 (· ≠ '-'); pure 2

/-- What follows the hyphen in `_version_linux_re`. -/
def revisionRe (f : Option Nat → LinuxGroups) : Pattern LinuxGroups := do
  let _ ← run1 Char.isDigit
  let _ ← opt (do lit "."; run1 Char.isDigit)
  let revision ← opt (alt expRe (alt bpoRe otherRe))
  atEnd
  pure (f revision)

/-- A revision of each kind. -/
def OfKind (revision : Text) : Option Nat → Prop
  | none => PlainRevision revision
  | some 0 => ExperimentalRevision revision
  | some 1 => BackportsRevision revision
  | some 2 => True
  | some _ => False

theorem mem_digits {t w r : Text} :
    (w, r) ∈ run1 Char.isDigit t ↔ t = w ++ r ∧ Digits w :=
  mem_run1

theorem Digits.ne_hyphen {t : Text} (h : Digits t) : '-' ∉ t := fun hmem =>
  absurd (h.2 _ hmem) (by decide)

theorem PlainRevision.ne_hyphen {t : Text} (h : PlainRevision t) : '-' ∉ t := by
  cases h with
  | major hn => exact Digits.ne_hyphen hn
  | minor hn hm =>
    rw [List.mem_append, List.mem_cons, not_or, not_or]
    exact ⟨Digits.ne_hyphen hn, by decide, Digits.ne_hyphen hm⟩

theorem PlainRevision.ne_nil {t : Text} (h : PlainRevision t) : t ≠ [] := by
  cases h with
  | major hn => exact hn.1
  | minor hn hm => exact List.append_ne_nil_of_left_ne_nil hn.1 _

theorem mem_expRe {t r : Text} {k : Nat} (h : (k, r) ∈ expRe t) :
    k = 0 ∧ ∃ n, Digits n ∧ t = ("~exp" ++ n : Text) ++ r := by
  obtain ⟨_, t₁, hlit, h₁⟩ := mem_bind.mp h
  obtain ⟨n, t₂, hn, h₂⟩ := mem_bind.mp h₁
  obtain ⟨rfl, rfl⟩ := mem_pure.mp h₂
  obtain ⟨rfl, hdigits⟩ := mem_digits.mp hn
  exact ⟨rfl, n, hdigits, by rw [mem_lit.mp hlit, List.append_assoc]⟩

theorem mem_bpoRe {t r : Text} {k : Nat} (h : (k, r) ∈ bpoRe t) :
    k = 1 ∧ ∃ n m, Digits n ∧ n.length = 2 ∧ Digits m ∧
      t = ("~bpo" ++ n ++ "+" ++ m : Text) ++ r := by
  obtain ⟨_, t₁, hlit, h₁⟩ := mem_bind.mp h
  obtain ⟨n, t₂, hn, h₂⟩ := mem_bind.mp h₁
  obtain ⟨_, t₃, hlook, h₃⟩ := mem_bind.mp h₂
  obtain ⟨_, t₄, hplus, h₄⟩ := mem_bind.mp h₃
  obtain ⟨m, t₅, hm, h₅⟩ := mem_bind.mp h₄
  obtain ⟨rfl, rfl⟩ := mem_pure.mp h₅
  obtain ⟨rfl, hlength⟩ := mem_look.mp hlook
  obtain ⟨ht₁, hn'⟩ := mem_digits.mp hn
  obtain ⟨ht₄, hm'⟩ := mem_digits.mp hm
  refine ⟨rfl, n, m, hn', of_decide_eq_true hlength, hm', ?_⟩
  rw [mem_lit.mp hlit, ht₁, mem_lit.mp hplus, ht₄]
  simp only [List.append_assoc]

theorem mem_otherRe {t r : Text} {k : Nat} (h : (k, r) ∈ otherRe t) :
    k = 2 ∧ ∃ w, '-' ∉ w ∧ t = w ++ r := by
  obtain ⟨w, t₁, hw, h₁⟩ := mem_bind.mp h
  obtain ⟨rfl, rfl⟩ := mem_pure.mp h₁
  obtain ⟨rfl, -, hclass⟩ := mem_run1.mp hw
  exact ⟨rfl, w, fun hmem => of_decide_eq_true (hclass _ hmem) rfl, rfl⟩

/-- `\d+(\.\d+)?`. -/
theorem mem_plain {t t₁ r n : Text} {minor : Option Text} (hn : (n, t₁) ∈ run1 Char.isDigit t)
    (hminor : (minor, r) ∈ opt (do lit "."; run1 Char.isDigit) t₁) :
    ∃ plain, PlainRevision plain ∧ t = plain ++ r := by
  obtain ⟨rfl, hn'⟩ := mem_digits.mp hn
  rcases mem_opt.mp hminor with ⟨m, -, hm⟩ | ⟨-, rfl⟩
  · obtain ⟨_, t₂, hdot, hdigits⟩ := mem_bind.mp hm
    obtain ⟨ht₂, hm'⟩ := mem_digits.mp hdigits
    exact ⟨n ++ '.' :: m, .minor hn' hm', by rw [mem_lit.mp hdot, ht₂]; simp⟩
  · exact ⟨n, .major hn', rfl⟩

/-- What a revision is, for each group that matches at its end. -/
theorem mem_revisionRe {f : Option Nat → LinuxGroups} {s rest : Text} {d : LinuxGroups}
    (hs : '\n' ∉ s) (h : (d, rest) ∈ revisionRe f s) :
    ∃ kind, d = f kind ∧ OfKind s kind ∧ '-' ∉ s ∧ s ≠ [] := by
  obtain ⟨n, s₁, hn, h₁⟩ := mem_bind.mp h
  obtain ⟨minor, s₂, hminor, h₂⟩ := mem_bind.mp h₁
  obtain ⟨kind, s₃, hkind, h₃⟩ := mem_bind.mp h₂
  obtain ⟨_, s₄, hend, h₄⟩ := mem_bind.mp h₃
  have hd : d = f kind := (mem_pure.mp h₄).1
  have hs₃ : s₃ = [] ∨ s₃ = ['\n'] := (mem_atEnd.mp hend).2
  obtain ⟨plain, hplain, rfl⟩ := mem_plain hn hminor
  have hne : ∀ suffix : Text, plain ++ suffix ≠ [] :=
    List.append_ne_nil_of_left_ne_nil (PlainRevision.ne_nil hplain)
  have hhyphen : ∀ {suffix : Text}, '-' ∉ suffix → '-' ∉ plain ++ suffix := fun h hmem =>
    (List.mem_append.mp hmem).elim (PlainRevision.ne_hyphen hplain) h
  have hsuffix : ∀ {suffix : Text}, s₂ = suffix ++ s₃ → s₂ = suffix := by
    intro suffix heq
    rcases hs₃ with rfl | rfl
    · rw [heq, List.append_nil]
    · exact absurd (by rw [heq]; simp) hs
  refine ⟨kind, hd, ?_⟩
  rcases mem_opt.mp hkind with ⟨k, rfl, hk⟩ | ⟨rfl, heq⟩
  · rcases List.mem_append.mp hk with hk | hk
    · obtain ⟨rfl, m, hm, heq⟩ := mem_expRe hk
      obtain rfl := hsuffix heq
      refine ⟨⟨plain, m, hplain, hm, (List.append_assoc _ _ _).symm⟩, hhyphen ?_, hne _⟩
      rw [List.mem_append, not_or]
      exact ⟨by decide, Digits.ne_hyphen hm⟩
    · rcases List.mem_append.mp hk with hk | hk
      · obtain ⟨rfl, m, l, hm, hlength, hl, heq⟩ := mem_bpoRe hk
        obtain rfl := hsuffix heq
        refine ⟨⟨plain, m, l, hplain, hm, hlength, hl, ?_⟩, hhyphen ?_, hne _⟩
        · simp only [List.append_assoc]
        · simp only [List.mem_append, not_or]
          exact ⟨⟨⟨by decide, Digits.ne_hyphen hm⟩, by decide⟩, Digits.ne_hyphen hl⟩
      · obtain ⟨rfl, w, hw, heq⟩ := mem_otherRe hk
        obtain rfl := hsuffix heq
        exact ⟨trivial, hhyphen hw, hne _⟩
  · obtain rfl := @hsuffix [] heq.symm
    refine ⟨?_, hhyphen List.not_mem_nil, hne _⟩
    rw [List.append_nil]
    exact hplain

/-- No group is tried before the end of a plain revision. -/
theorem first_revisionRe_plain {f : Option Nat → LinuxGroups} {s : Text} (h : PlainRevision s) :
    first (revisionRe f) s = some (f none, []) := by
  have hdigits : ∀ {n t : Text}, Digits n → (∀ c ∈ t.head?, c.isDigit = false) →
      first (run1 Char.isDigit) (n ++ t) = some (n, t) := fun hn ht => first_run1 hn.1 hn.2 ht
  cases h with
  | major hn =>
    rw [← List.append_nil s]
    exact first_bind (hdigits hn (by simp)) rfl
  | @minor n m hn hm =>
    have hminor : first (opt (do lit "."; run1 Char.isDigit)) ('.' :: m) = some (some m, []) := by
      refine first_opt (first_bind (a := ()) (s := m) rfl ?_)
      simpa using hdigits (t := []) hm (by simp)
    refine first_bind (hdigits hn fun c hc => ?_) (first_bind hminor rfl)
    obtain rfl := Option.some.inj hc
    rfl

/-! ## The two expressions -/

/-- The flags of a kind. -/
structure HasKind (d : LinuxGroups) (kind : Option Nat) : Prop where
  experimental : d.experimental = decide (kind = some 0)
  backports : d.backports = decide (kind = some 1)
  other : d.other = decide (kind = some 2)

/-- What `_version_linux_re` matches, cut at the hyphen before the revision. -/
structure LinuxSplit (s : Text) (d : LinuxGroups) (upstream revision : Text) : Prop where
  eq : s = upstream ++ '-' :: revision
  parts : upstream = d.version ++ d.update ++ d.modifier.elim [] ('~' :: ·) ++
    d.dfsg.elim [] ((".dfsg." : Text) ++ ·)
  version : IsLinuxVersion d.version
  update : IsUpdate d.update
  hyphen : '-' ∉ revision
  ne_nil : revision ≠ []
  kind : ∃ kind, OfKind revision kind ∧ HasKind d kind ∧ (PlainRevision revision → kind = none)

theorem first_versionLinuxRe {s rest : Text} {d : LinuxGroups} (hs : '\n' ∉ s)
    (h : first versionLinuxRe s = some (d, rest)) :
    ∃ upstream revision, LinuxSplit s d upstream revision := by
  obtain ⟨major, s₁, hmajor, h₁⟩ := mem_first_bind h
  obtain ⟨_, s₂, hdot, h₂⟩ := mem_first_bind h₁
  obtain ⟨minor, s₃, hminor, h₃⟩ := mem_first_bind h₂
  obtain ⟨stable, s₄, hstable, h₄⟩ := mem_first_bind h₃
  obtain ⟨pre, s₅, hpre, h₅⟩ := mem_first_bind h₄
  obtain ⟨modifier, s₆, hmodifier, h₆⟩ := mem_first_bind h₅
  obtain ⟨dfsg, s₇, hdfsg, h₇⟩ := mem_first_bind h₆
  obtain ⟨_, s₈, hhyphen, h₈⟩ := mem_first_bind h₇
  obtain ⟨rfl, hmajor'⟩ := mem_digits.mp hmajor
  obtain rfl := mem_lit.mp hdot
  obtain ⟨rfl, hminor'⟩ := mem_digits.mp hminor
  have hstable' : s₃ = stable.elim [] ('.' :: ·) ++ s₄ ∧ ∀ n, stable = some n → Digits n := by
    rcases mem_opt.mp hstable with ⟨n, rfl, hn⟩ | ⟨rfl, rfl⟩
    · obtain ⟨_, t, hlit, hn⟩ := mem_bind.mp hn
      obtain ⟨rfl, hn'⟩ := mem_digits.mp hn
      exact ⟨by rw [mem_lit.mp hlit]; rfl, by rintro _ ⟨⟩; exact hn'⟩
    · exact ⟨rfl, by simp⟩
  have hpre' : s₄ = pre.elim [] ('-' :: ·) ++ s₅ ∧ ∀ w, pre = some w → ∃ name n : Text,
      name ≠ [] ∧ (∀ c ∈ name, 'a' ≤ c ∧ c ≤ 'z') ∧ Digits n ∧ w = name ++ n := by
    rcases mem_opt.mp hpre with ⟨w, rfl, hw⟩ | ⟨rfl, rfl⟩
    · obtain ⟨_, t, hlit, hw₁⟩ := mem_bind.mp hw
      obtain ⟨name, t₁, hname, hw₂⟩ := mem_bind.mp hw₁
      obtain ⟨n, t₂, hn, hw₃⟩ := mem_bind.mp hw₂
      obtain ⟨rfl, rfl⟩ := mem_pure.mp hw₃
      obtain ⟨rfl, hne, hclass⟩ := mem_run1.mp hname
      obtain ⟨rfl, hn'⟩ := mem_digits.mp hn
      refine ⟨by rw [mem_lit.mp hlit]; simp, ?_⟩
      rintro _ ⟨⟩
      exact ⟨name, n, hne, fun c hc => of_decide_eq_true (hclass c hc), hn', rfl⟩
    · exact ⟨rfl, by simp⟩
  have hmodifier' : s₅ = modifier.elim [] ('~' :: ·) ++ s₆ := by
    rcases mem_opt.mp hmodifier with ⟨w, rfl, hw⟩ | ⟨rfl, rfl⟩
    · obtain ⟨_, t, hlit, hw₁⟩ := mem_bind.mp hw
      obtain ⟨rfl, -⟩ := mem_run1.mp (List.mem_reverse.mp hw₁)
      rw [mem_lit.mp hlit]
      rfl
    · rfl
  have hdfsg' : s₆ = dfsg.elim [] ((".dfsg." : Text) ++ ·) ++ s₇ := by
    rcases mem_opt.mp hdfsg with ⟨n, rfl, hn⟩ | ⟨rfl, rfl⟩
    · obtain ⟨_, t, hlit, hn₁⟩ := mem_bind.mp hn
      obtain ⟨rfl, -⟩ := mem_digits.mp hn₁
      rw [mem_lit.mp hlit]
      exact (List.append_assoc _ _ _).symm
    · rfl
  obtain rfl := mem_lit.mp hhyphen
  rw [hstable'.1, hpre'.1, hmodifier', hdfsg'] at hs ⊢
  -- what is left is matched as a revision
  generalize hf : (fun revision : Option Nat => ({
    version := major ++ ['.'] ++ minor
    update := (stable.elim [] ('.' :: ·)) ++ (pre.elim [] ('-' :: ·))
    modifier := modifier
    dfsg := dfsg
    experimental := revision = some 0
    backports := revision = some 1
    other := revision = some 2 } : LinuxGroups)) = f
  have htail : first (revisionRe f) s₈ = some (d, rest) := hf ▸ h₈
  obtain ⟨kind, hd, hkind, hno, hne⟩ :=
    mem_revisionRe (fun hmem => hs (by simp [hmem])) (mem_of_first htail)
  have hplain : PlainRevision s₈ → d = f none := by
    intro hplain
    rw [first_revisionRe_plain hplain] at htail
    exact (Prod.mk.inj (Option.some.inj htail)).1.symm
  subst hf
  refine ⟨_, s₈, ⟨?_, rfl, ?_, ?_, hno, hne, kind, hkind, ?_, ?_⟩⟩
  · rw [hd]
    simp
  · rw [hd]
    exact ⟨major, minor, hmajor', hminor', by simp⟩
  · rw [hd]
    refine ⟨_, _, rfl, ?_, ?_⟩
    · cases stable with
      | none => exact .inl rfl
      | some n => exact .inr ⟨n, hstable'.2 n rfl, rfl⟩
    · cases pre with
      | none => exact .inl rfl
      | some w =>
        obtain ⟨name, n, hne, hname, hn, rfl⟩ := hpre'.2 w rfl
        exact .inr ⟨name, n, hne, hname, hn, rfl⟩
  · rw [hd]
    exact ⟨rfl, rfl, rfl⟩
  · intro h
    have hkinds := hd.symm.trans (hplain h)
    simp only [LinuxGroups.mk.injEq, true_and, reduceCtorEq, decide_eq_decide, iff_false]
      at hkinds
    rcases kind with _ | _ | _ | _ | k
    · rfl
    · exact absurd rfl hkinds.1
    · exact absurd rfl hkinds.2.1
    · exact absurd rfl hkinds.2.2
    · cases hkind

/-- The first expression cuts at the last hyphen. -/
theorem first_versionRe {s rest upstream revision : Text} {base : Version} (hs : '\n' ∉ s)
    (h : first versionRe s = some (base, rest)) (heq : s = upstream ++ '-' :: revision)
    (hhyphen : '-' ∉ revision) (hne : revision ≠ []) (hversion : ∃ major t, Digits major ∧
      upstream = major ++ '.' :: t) : base = ⟨none, upstream, some revision⟩ := by
  obtain ⟨major, t, hmajor, rfl⟩ := hversion
  obtain ⟨epoch, s₁, hepoch, h₁⟩ := mem_first_bind h
  have hnone : epoch = none ∧ s₁ = s := by
    rcases mem_opt.mp hepoch with ⟨e, -, he⟩ | hnone
    · obtain ⟨e', t₁, he₁, he₂⟩ := mem_bind.mp he
      obtain ⟨_, t₂, hcolon, -⟩ := mem_bind.mp he₂
      obtain ⟨hs₁, he'⟩ := mem_digits.mp he₁
      rw [heq, mem_lit.mp hcolon] at hs₁
      have hdrop := congrArg (List.dropWhile Char.isDigit) hs₁
      rw [List.append_assoc, List.dropWhile_append_of_pos hmajor.2,
        List.dropWhile_append_of_pos he'.2] at hdrop
      exact absurd (List.cons.inj hdrop).1 (by decide)
    · exact hnone
  obtain ⟨rfl, rfl⟩ := hnone
  obtain ⟨w, r, hw, h₂, hshorter⟩ := first_lazyRun1_bind h₁
  have hwr : s₁ = w ++ r := (mem_run1.mp hw).1
  obtain ⟨rev, r₁, hrev, h₃⟩ := mem_bind.mp (mem_of_first h₂)
  obtain ⟨_, r₂, hend, h₄⟩ := mem_bind.mp h₃
  have hbase := (mem_pure.mp h₄).1
  have hr₁ : ∀ t, s₁ = t ++ r₁ → r₁ = [] := by
    intro t ht
    rcases (mem_atEnd.mp hend).2 with hnil | hnewline
    · exact hnil
    · exact absurd (by rw [ht, hnewline]; simp) hs
  rcases mem_opt.mp hrev with ⟨rev', rfl, hrev'⟩ | ⟨rfl, rfl⟩
  · obtain ⟨_, t₁, hlit, hclass⟩ := mem_bind.mp hrev'
    obtain ⟨rfl, -, hclass'⟩ := mem_run1.mp hclass
    rw [mem_lit.mp hlit] at hwr
    have hnil := hr₁ (w ++ ("-" ++ rev')) (by rw [hwr]; simp)
    rw [hnil, List.append_nil] at hwr
    obtain ⟨hw, -, hr⟩ := Text.split_unique (p := fun c => c ≠ '-') (hwr.symm.trans heq) hclass'
      (fun c hc => decide_eq_true fun heq => hhyphen (heq ▸ hc)) rfl rfl
    rw [hbase, hw, show rev' = revision from hr]
    rfl
  · -- a shorter match ends at the hyphen
    have hnil := hr₁ w hwr
    rw [hnil, List.append_nil] at hwr
    have hmem : (major ++ '.' :: t, '-' :: revision) ∈ run1 (· ≠ '\n') s₁ := by
      refine mem_run1.mpr ⟨heq, List.append_ne_nil_of_left_ne_nil hmajor.1 _, fun c hc => ?_⟩
      exact decide_eq_true fun hcn => hs (by rw [heq, ← hcn]; exact List.mem_append_left _ hc)
    have hlt : (major ++ '.' :: t).length < w.length := by
      rw [← hwr, heq]
      simp
    have hmatch : (⟨none, major ++ '.' :: t, some revision⟩, []) ∈
        (do
          let rev ← opt (do lit "-"; run1 (· ≠ '-'))
          atEnd
          pure (⟨none, major ++ '.' :: t, rev⟩ : Version)) ('-' :: revision) := by
      refine mem_bind.mpr ⟨some revision, [], mem_opt.mpr (.inl ⟨revision, rfl, ?_⟩), ?_⟩
      · refine mem_bind.mpr ⟨(), revision, mem_lit.mpr rfl, mem_run1.mpr ⟨?_, hne, ?_⟩⟩
        · exact (List.append_nil _).symm
        · exact fun c hc => decide_eq_true fun heq => hhyphen (heq ▸ hc)
      · exact mem_bind.mpr ⟨(), [], mem_atEnd.mpr ⟨rfl, .inl rfl⟩, mem_pure.mpr ⟨rfl, rfl⟩⟩
    have hempty := hshorter _ _ hmem hlt
    exact absurd (hempty ▸ hmatch) List.not_mem_nil

theorem uploadAllowed_of_isSome {config : ConfigCore} {source s distribution : Text}
    {v : VersionLinux} (h : (processChangelog config source s distribution).isSome = true)
    (hv : VersionLinux.ofText s = some v) : uploadAllowed v distribution = true := by
  obtain ⟨g, hg⟩ := Option.isSome_iff_exists.mp h
  unfold processChangelog at hg
  obtain ⟨v', hv', hg⟩ := Option.bind_eq_some_iff.mp hg
  obtain ⟨part, -, hg⟩ := Option.bind_eq_some_iff.mp hg
  obtain ⟨_, hguard, -⟩ := Option.bind_eq_some_iff.mp hg
  obtain rfl := Option.some.inj (hv.symm.trans hv')
  by_contra hnot
  rw [guard, if_neg hnot] at hguard
  cases hguard

end LinuxVersionLemmas

open LinuxVersionLemmas

/-- The parts make up the version, and the suites admit the kinds of revisions that are theirs. -/
theorem versionLinux_parts {s : Text} {v : VersionLinux} (hs : '\n' ∉ s)
    (h : VersionLinux.ofText s = some v) :
    ∃ update revision, LinuxParts s v update revision ∧
      ∀ config source distribution,
        (processChangelog config source s distribution).isSome = true →
          Admitted distribution revision := by
  unfold VersionLinux.ofText at h
  obtain ⟨⟨base, rest⟩, hbase, h₁⟩ := Option.bind_eq_some_iff.mp h
  obtain ⟨⟨d, rest'⟩, hd, h₂⟩ := Option.bind_eq_some_iff.mp h₁
  obtain ⟨_, -, h₃⟩ := Option.bind_eq_some_iff.mp h₂
  obtain ⟨upstream, revision, hsplit⟩ := first_versionLinuxRe hs hd
  obtain ⟨kind, hkind, hflags, hplain⟩ := hsplit.kind
  obtain ⟨n, m, hn, hm, hversion⟩ := hsplit.version
  have hbase' := first_versionRe hs hbase hsplit.eq hsplit.hyphen hsplit.ne_nil
    ⟨n, m ++ (d.update ++ (d.modifier.elim [] ('~' :: ·) ++
      d.dfsg.elim [] ((".dfsg." : Text) ++ ·))), hn, by
        rw [hsplit.parts, hversion]
        simp only [List.append_assoc, List.cons_append]⟩
  have hupstream : upstream = base.upstream := by rw [hbase']
  have hcomplete : base.complete = s := by
    rw [hbase', hsplit.eq, Version.complete, Version.completeNoepoch]
    simp
  have hrevision : base.revision = some revision := by rw [hbase']
  cases h₃
  refine ⟨d.update, revision, ⟨hcomplete, ?_, hsplit.version, hsplit.update, rfl, hrevision,
    ⟨by rw [hsplit.eq, hupstream], hsplit.hyphen⟩, ?_, ?_⟩, ?_⟩
  · rw [hsplit.eq, hsplit.parts]
  · rw [hflags.experimental, hflags.backports, hflags.other]
    simp only [decide_eq_true_eq]
    refine ⟨?_, ?_, ?_⟩ <;>
    · rintro ⟨rfl, hkind'⟩
      cases hkind'
  · rw [hflags.experimental, hflags.backports, hflags.other]
    simp only [decide_eq_true_eq, not_or]
    constructor
    · rintro ⟨hzero, hone, htwo⟩
      rcases kind with _ | _ | _ | _ | k
      · exact hkind
      · exact absurd rfl hzero
      · exact absurd rfl hone
      · exact absurd rfl htwo
      · cases hkind
    · intro hrevision
      simp [hplain hrevision]
  · intro config source distribution hrun
    have hallowed := uploadAllowed_of_isSome hrun h
    simp only [uploadAllowed, hflags.experimental, hflags.backports, hflags.other,
      decide_eq_true_eq] at hallowed
    obtain ⟨hunstable, hexperimental, hbackports⟩ := hallowed
    refine ⟨fun heq => ?_, fun heq => ?_, fun hsuffix => ?_⟩
    · rcases kind with _ | _ | _ | _ | k
      · exact hkind
      · exact absurd ⟨heq, .inl rfl⟩ hunstable
      · exact absurd ⟨heq, .inr (.inl rfl)⟩ hunstable
      · exact absurd ⟨heq, .inr (.inr rfl)⟩ hunstable
      · cases hkind
    · obtain rfl := hexperimental heq
      exact hkind
    · obtain rfl := hbackports hsuffix
      exact hkind

/-- A backport of a stable update. -/
theorem backport_parts : ∃ update revision,
    (∃ v, LinuxParts "3.2.20-1~bpo60+1" v update revision) ∧
      BackportsRevision revision := by
  obtain ⟨v, hv⟩ := Option.isSome_iff_exists.mp
    (show (VersionLinux.ofText "3.2.20-1~bpo60+1").isSome = true by decide)
  obtain ⟨update, revision, hparts, hadmitted⟩ := versionLinux_parts (by decide) hv
  refine ⟨update, revision, ⟨v, hparts⟩, ?_⟩
  exact (hadmitted archConfig "linux" "squeeze-backports" (by decide)).backports (by decide)

end DebianKernel.Debian
