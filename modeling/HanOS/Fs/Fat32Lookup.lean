import HanOS.Fs.Fat32Chain
import HanOS.Fs.Fat32Dir
import HanOS.Fs.Fat32Layout
import HanOS.Fs.PathWalk
import Mathlib.Data.List.GetD

/-!
# What a path looks up

`LooksUp` is the meaning of a path on a volume: each component in turn is the first live entry of
that name in a directory, wherever in its chain the entry is stored.  `fat32_parse_path` sees the
first 16 slots of a cluster only, passes over the first slot of every directory but the root, and
drops a component of the path at every entry that does not match.  `Early` says that none of this
comes in the way of a path, and then the two agree (`parsePath_resolves`).
-/

namespace HanOS.Fs

open HanOS.Foundations HanOS.Lib HanOS.Core

variable {vol : Volume} {cluster index : Nat} {chain : List Nat}

/-! ## Directories -/

def slotAt (vol : Volume) (cluster index : Nat) : Fat32Entry :=
  slotEntry vol.disk (clusterOffset vol cluster + index * 32) cluster index

def dirSlots (vol : Volume) (chain : List Nat) : List Fat32Entry :=
  chain.flatMap fun cluster => (List.range (vol.bytesPerCluster / 32)).map (slotAt vol cluster)

def Fat32Entry.isDirectory (ent : Fat32Entry) : Bool := ent.attr &&& 0x10 ≠ 0

def Fat32Entry.isVolumeLabel (ent : Fat32Entry) : Bool := ent.attr &&& 0x08 ≠ 0

/-- A file or a directory: not free, no part of a long name and not the volume label. -/
structure Fat32Entry.Live (ent : Fat32Entry) : Prop where
  used : ent.name 0 ≠ 0
  present : ent.name 0 ≠ 0xE5
  short : ent.attr &&& 0x0F ≠ 0x0F
  label : ent.isVolumeLabel = false

def padded (base ext : CString) (k : Fin 11) : Byte :=
  toupper (if k.val < 8 then base.getD k.val 0x20 else ext.getD (k.val - 8) 0x20)

inductive Spells : CString → (Fin 11 → Byte) → Prop
  | plain {base : CString} : base ≠ [] → base.length ≤ 8 → dot ∉ base → Spells base (padded base [])
  | extended {base ext : CString} : base ≠ [] → base.length ≤ 8 → ext.length ≤ 3 → dot ∉ base →
      dot ∉ ext → Spells (base ++ dot :: ext) (padded base ext)

structure Named (token : CString) (ent : Fat32Entry) : Prop where
  live : ent.Live
  name : Spells token ent.unescaped.name

structure FirstNamed (entries : List Fat32Entry) (token : CString) (ent : Fat32Entry) : Prop where
  named : Named token ent
  first : ∃ k, entries[k]? = some ent ∧
    ∀ (j : Nat) other, j < k → entries[j]? = some other → ¬ Named token other

/-- The components lead from the directory at a cluster to an entry. -/
inductive LooksUp (vol : Volume) : Nat → List CString → Fat32Entry → Prop
  | last {cluster : Nat} {chain : List Nat} {token : CString} {ent : Fat32Entry} :
      FatChain vol cluster chain → FirstNamed (dirSlots vol chain) token ent →
      LooksUp vol cluster [token] ent.unescaped
  | into {cluster : Nat} {chain : List Nat} {token : CString} {ent final : Fat32Entry}
      {tokens : List CString} :
      FatChain vol cluster chain → FirstNamed (dirSlots vol chain) token ent → ent.isDirectory →
      LooksUp vol ent.clusterBegin tokens final → LooksUp vol cluster (token :: tokens) final

/-- What is asked of `fat32_parse_path`, whatever is on the stack: the entry of the path, and the
    zero entry exactly for a path without one. -/
def Resolves (vol : Volume) (tokens : List CString) : Prop :=
  ∀ behind : ParseScan → Mem,
    (∀ ent, LooksUp vol vol.bs.rootDirFirstCluster tokens ent →
      ∃ fuel, fat32ParsePath vol behind fuel (absolutePath tokens) = some ent) ∧
    ((∃ fuel, fat32ParsePath vol behind fuel (absolutePath tokens) = some .zero) ↔
      ¬ ∃ ent, LooksUp vol vol.bs.rootDirFirstCluster tokens ent)

/-! ## A lookup has one outcome -/

theorem FirstNamed.unique {entries : List Fat32Entry} {token : CString} {ent other : Fat32Entry}
    (first : FirstNamed entries token ent) (second : FirstNamed entries token other) :
    ent = other := by
  obtain ⟨named, k, at_k, before⟩ := first
  obtain ⟨otherNamed, j, at_j, otherBefore⟩ := second
  rcases Nat.lt_trichotomy j k with below | rfl | above
  · exact absurd otherNamed (before j other below at_j)
  · exact Option.some.inj (at_k.symm.trans at_j)
  · exact absurd named (otherBefore k ent above at_k)

theorem LooksUp.unique {tokens : List CString} {ent other : Fat32Entry}
    (first : LooksUp vol cluster tokens ent) (second : LooksUp vol cluster tokens other) :
    ent = other := by
  induction first with
  | last walk named =>
    cases second with
    | last otherWalk otherNamed =>
      obtain rfl := walk.follows.unique otherWalk.follows
      rw [named.unique otherNamed]
    | into _ _ _ below => cases below
  | into walk named _ below inductionHypothesis =>
    cases second with
    | last => cases below
    | into otherWalk otherNamed _ otherBelow =>
      obtain rfl := walk.follows.unique otherWalk.follows
      obtain rfl := named.unique otherNamed
      exact inductionHypothesis otherBelow

/-! ## Names -/

theorem Spells.nonempty {token : CString} {name : Fin 11 → Byte} (spells : Spells token name) :
    token ≠ [] := by
  cases spells with
  | plain nonempty => exact nonempty
  | extended => simp

/-- For a component that spells a name, the buffer of the comparison holds that name. -/
theorem Spells.dosName_eq {token : CString} {name : Fin 11 → Byte} (spells : Spells token name) :
    dosName token = name := by
  funext k
  cases spells with
  | plain _ short absent =>
    simp only [dosName, if_neg absent, padded, List.take_of_length_le short, List.getD_nil]
    split
    · rfl
    · rw [List.getD_eq_default _ _ (by omega)]
  | @extended base ext _ short extShort absent extAbsent =>
    have front : (base ++ dot :: ext).takeWhile (· ≠ dot) = base := by
      rw [List.takeWhile_append_of_pos]
      · simp
      · intro c member
        simp only [ne_eq, decide_not, Bool.not_eq_true', decide_eq_false_iff_not]
        rintro rfl
        exact absent member
    have back : (base ++ dot :: ext).drop (base.length + 1) = ext := by simp
    have inside : dot ∈ base ++ dot :: ext := by simp
    simp only [dosName, if_pos inside, front, back, padded, List.take_of_length_le short,
      List.take_of_length_le extShort]

theorem fat32CompareEntryAndPath_iff {ent : Fat32Entry} {token : CString} :
    fat32CompareEntryAndPath ent token = true ↔ ent.name = dosName token := by
  simp [fat32CompareEntryAndPath, funext_iff]

theorem Named.matches_ {token : CString} {ent : Fat32Entry} (named : Named token ent) :
    ent.skipped = false ∧ fat32CompareEntryAndPath ent.unescaped token = true := by
  constructor
  · simp only [Fat32Entry.skipped, decide_eq_false_iff_not, not_or]
    exact ⟨named.live.short, named.live.present⟩
  · rw [fat32CompareEntryAndPath_iff, named.name.dosName_eq]

/-! ## One pass of the loop -/

variable {behind : ParseScan → Mem} {token : CString} {tokens : List CString}

/-- Within the sector buffer the loop reads what is on the disk. -/
theorem fat32ReadEntry_eq (stack : Mem) (sector : vol.bs.bytesPerSector = 512) (inside : index < 16) :
    fat32ReadEntry vol stack cluster index = slotAt vol cluster index := by
  have byte : ∀ k < 32,
      (if index * 32 + k < 512 then
        vol.ataPioRead28 (vol.clusterLba cluster) 1 (fun _ => 0) 0 (index * 32 + k)
      else stack (index * 32 + k)) = vol.disk (clusterOffset vol cluster + index * 32 + k) := by
    intro k below
    rw [if_pos (by omega), Volume.ataPioRead28, blit_inside (by omega) (by omega), clusterOffset]
    congr 1
    omega
  simp only [fat32ReadEntry, slotAt, slotEntry, Fat32Entry.mk.injEq, and_true]
  have word : ∀ start width, start + width ≤ 32 →
      loadLE (fun x => if x < 512 then
          vol.ataPioRead28 (vol.clusterLba cluster) 1 (fun _ => 0) 0 x else stack x)
        (index * 32 + start) width =
      loadLE vol.disk (clusterOffset vol cluster + index * 32 + start) width := by
    intro start width inside
    apply loadLE_shift
    intro i below
    have same := byte (start + i) (by omega)
    rwa [← Nat.add_assoc, ← Nat.add_assoc] at same
  refine ⟨?_, byte 11 (by omega), ?_, word 28 4 (by omega)⟩
  · funext k
    exact byte k (by omega)
  · rw [word 26 2 (by omega), word 20 2 (by omega)]

/-- Below slot 16 the loop stays in its cluster. -/
theorem parseStep_inside {i : Nat} {path : CString} (sector : vol.bs.bytesPerSector = 512)
    (positive : 0 < vol.bs.sectorsPerCluster) (inside : i < 16) :
    parseStep vol behind { cluster, i, path } = parseEntry (slotAt vol cluster i) cluster i path := by
  simp only [parseStep, fat32ReadEntry_eq _ sector inside]
  rw [if_neg (by omega)]

theorem parseEntry_skipped {ent : Fat32Entry} {i : Nat} {path : CString} (inside : i < 16)
    (skipped : ent.skipped) :
    parseEntry ent cluster i path = .next { cluster, i := i + 1, path } := by
  rw [parseEntry, if_pos skipped, u32_of_lt (by omega)]

theorem behindSlash_last (component : IsComponent token) : behindSlash token = none := by
  have all : token.takeWhile (· ≠ slash) = token := by
    have taken := takeWhile_joinTokens component []
    exact taken
  rw [behindSlash, all, List.drop_eq_nil_of_le (by omega)]

theorem behindSlash_into (component : IsComponent token) (more : joinTokens tokens ≠ []) :
    behindSlash (joinTokens (token :: tokens)) = some (token, joinTokens tokens) := by
  simp only [behindSlash, takeWhile_joinTokens component, drop_joinTokens]

theorem parseEntry_last {ent : Fat32Entry} {i : Nat} (inside : i < 16)
    (component : IsComponent token) (present : ent.skipped = false) :
    parseEntry ent cluster i token =
      if fat32CompareEntryAndPath ent.unescaped token then .found ent.unescaped
      else .next { cluster, i := i + 1, path := token } := by
  simp only [parseEntry, present, behindSlash_last component, u32_of_lt (show i + 1 < 2 ^ 32 by omega)]
  simp

@[simp] theorem Fat32Entry.unescaped_clusterBegin (ent : Fat32Entry) :
    ent.unescaped.clusterBegin = ent.clusterBegin := by
  rw [Fat32Entry.unescaped]
  split <;> rfl

@[simp] theorem Fat32Entry.unescaped_fileSizeBytes (ent : Fat32Entry) :
    ent.unescaped.fileSizeBytes = ent.fileSizeBytes := by
  rw [Fat32Entry.unescaped]
  split <;> rfl

@[simp] theorem Fat32Entry.unescaped_attr (ent : Fat32Entry) : ent.unescaped.attr = ent.attr := by
  rw [Fat32Entry.unescaped]
  split <;> rfl

theorem parseEntry_into {ent : Fat32Entry} {i : Nat} (inside : i < 16)
    (component : IsComponent token) (more : joinTokens tokens ≠ [])
    (present : ent.skipped = false) :
    parseEntry ent cluster i (joinTokens (token :: tokens)) =
      if fat32CompareEntryAndPath ent.unescaped token then
        .next { cluster := ent.clusterBegin, i := 1, path := joinTokens tokens }
      else .next { cluster, i := i + 1, path := joinTokens tokens } := by
  simp only [parseEntry, present, behindSlash_into component more,
    u32_of_lt (show i + 1 < 2 ^ 32 by omega)]
  simp

/-! ## The whole loop -/

/-- The clusters the loop reads from a state on, and its outcome. -/
inductive Passes (vol : Volume) (behind : ParseScan → Mem) :
    ParseScan → List Nat → Option Fat32Entry → Prop
  | found {scan : ParseScan} {ent : Fat32Entry} :
      parseStep vol behind scan = .found ent → Passes vol behind scan [scan.cluster] (some ent)
  | missing {scan : ParseScan} :
      parseStep vol behind scan = .missing → Passes vol behind scan [scan.cluster] none
  | next {scan next : ParseScan} {clusters : List Nat} {result : Option Fat32Entry} :
      parseStep vol behind scan = .next next → Passes vol behind next clusters result →
      Passes vol behind scan (scan.cluster :: clusters) result

variable {scan : ParseScan} {clusters : List Nat} {result other : Option Fat32Entry}

theorem Passes.parseLoop (passes : Passes vol behind scan clusters result) :
    parseLoop vol behind clusters.length scan = some result := by
  induction passes with
  | found stepped => simp [HanOS.Fs.parseLoop, stepped]
  | missing stepped => simp [HanOS.Fs.parseLoop, stepped]
  | next stepped _ inductionHypothesis => simpa [HanOS.Fs.parseLoop, stepped] using inductionHypothesis

/-- More fuel does not change the outcome. -/
theorem Passes.eq_of_parseLoop {fuel : Nat} (passes : Passes vol behind scan clusters result)
    (ended : HanOS.Fs.parseLoop vol behind fuel scan = some other) : other = result := by
  induction passes generalizing fuel with
  | found stepped =>
    cases fuel with
    | zero => cases ended
    | succ fuel => simpa [HanOS.Fs.parseLoop, stepped, eq_comm] using ended
  | missing stepped =>
    cases fuel with
    | zero => cases ended
    | succ fuel => simpa [HanOS.Fs.parseLoop, stepped, eq_comm] using ended
  | next stepped _ inductionHypothesis =>
    cases fuel with
    | zero => cases ended
    | succ fuel =>
      apply @inductionHypothesis fuel
      simpa [HanOS.Fs.parseLoop, stepped] using ended

theorem Passes.row {i k : Nat} {path : CString} (order : i ≤ k)
    (over_ : ∀ j, i ≤ j → j < k →
      parseStep vol behind { cluster, i := j, path } = .next { cluster, i := j + 1, path })
    (passes : Passes vol behind { cluster, i := k, path } clusters result) :
    ∃ all, Passes vol behind { cluster, i, path } all result ∧
      ∀ c ∈ all, c = cluster ∨ c ∈ clusters := by
  induction order using Nat.decreasingInduction with
  | self => exact ⟨clusters, passes, fun c member => .inr member⟩
  | of_succ i below inductionHypothesis =>
    obtain ⟨all, rest, members⟩ :=
      inductionHypothesis fun j low high => over_ j (by omega) high
    refine ⟨cluster :: all, .next (over_ i le_rfl below) rest, fun c member => ?_⟩
    cases member with
    | head => exact .inl rfl
    | tail _ member => exact members c member

/-! ## Where the loop finds what the path means -/

/-- Every component is stored in the first cluster of its directory, in one of the first 16 slots
    and from `first` on.  In front of the last component there is nothing the loop would take for
    it, and in front of the others nothing but free slots and long names. -/
inductive Early (vol : Volume) : Nat → Nat → List CString → Prop
  | last {first cluster k : Nat} {chain : List Nat} {token : CString} :
      FatChain vol cluster chain → first ≤ k → k < 16 → Named token (slotAt vol cluster k) →
      (∀ j < first, ¬ Named token (slotAt vol cluster j)) →
      (∀ j, first ≤ j → j < k → (slotAt vol cluster j).skipped ∨
        fat32CompareEntryAndPath (slotAt vol cluster j).unescaped token = false) →
      Early vol first cluster [token]
  | into {first cluster k : Nat} {chain : List Nat} {token : CString} {tokens : List CString} :
      FatChain vol cluster chain → first ≤ k → k < 16 → Named token (slotAt vol cluster k) →
      (∀ j < first, ¬ Named token (slotAt vol cluster j)) →
      (∀ j, first ≤ j → j < k → (slotAt vol cluster j).skipped) →
      (slotAt vol cluster k).isDirectory →
      Early vol 1 (slotAt vol cluster k).clusterBegin tokens →
      Early vol first cluster (token :: tokens)

theorem dirSlots_first {k : Nat} (sector : vol.bs.bytesPerSector = 512)
    (positive : 0 < vol.bs.sectorsPerCluster) (walk : FatChain vol cluster chain) (inside : k < 16) :
    (dirSlots vol chain)[k]? = some (slotAt vol cluster k) := by
  have head := walk.follows.head?_eq
  cases chain with
  | nil => cases head
  | cons c rest =>
    obtain rfl := Option.some.inj head
    have slots : k < vol.bytesPerCluster / 32 := by
      rw [Volume.bytesPerCluster, sector]
      omega
    rw [dirSlots, List.flatMap_cons, List.getElem?_append_left (by simpa using slots)]
    simp [slots]

theorem firstNamed_of_before {k : Nat} (sector : vol.bs.bytesPerSector = 512)
    (positive : 0 < vol.bs.sectorsPerCluster) (walk : FatChain vol cluster chain) (inside : k < 16)
    (named : Named token (slotAt vol cluster k))
    (before : ∀ j < k, ¬ Named token (slotAt vol cluster j)) :
    FirstNamed (dirSlots vol chain) token (slotAt vol cluster k) := by
  refine ⟨named, k, dirSlots_first sector positive walk inside, fun j other below at_j => ?_⟩
  rw [dirSlots_first sector positive walk (by omega)] at at_j
  exact Option.some.inj at_j ▸ before j below

theorem joinTokens_ne_nil (components : ∀ token ∈ tokens, IsComponent token)
    (nonempty : tokens ≠ []) : joinTokens tokens ≠ [] := by
  cases tokens with
  | nil => exact absurd rfl nonempty
  | cons token rest =>
    have first := (components token (List.mem_cons_self ..)).1
    cases rest with
    | nil => exact first
    | cons next rest => simp [joinTokens]

theorem Early.ne_nil {first : Nat} (early : Early vol first cluster tokens) : tokens ≠ [] := by
  cases early <;> simp

/-- The path means an entry, and the loop finds it within the clusters of the volume. -/
theorem Early.found {first : Nat} (sector : vol.bs.bytesPerSector = 512)
    (positive : 0 < vol.bs.sectorsPerCluster) (components : ∀ token ∈ tokens, IsComponent token)
    (early : Early vol first cluster tokens) :
    ∃ ent, LooksUp vol cluster tokens ent ∧
      ∀ behind, ∃ clusters,
        Passes vol behind { cluster, i := first, path := joinTokens tokens } clusters (some ent) ∧
        ∀ c ∈ clusters, vol.IsCluster c := by
  induction early with
  | @last first cluster k chain token walk order inside named earlier unlike =>
    have component := components token (List.mem_singleton_self _)
    have isCluster : vol.IsCluster cluster :=
      walk.inside cluster walk.follows.start_mem
    obtain ⟨present, equal⟩ := named.matches_
    -- no entry of the name is in front of this one
    have before : ∀ j < k, ¬ Named token (slotAt vol cluster j) := by
      intro j below other
      obtain ⟨otherPresent, otherEqual⟩ := other.matches_
      by_cases low : j < first
      · exact earlier j low other
      · rcases unlike j (by omega) below with skipped | different
        · rw [otherPresent] at skipped
          cases skipped
        · rw [otherEqual] at different
          cases different
    refine ⟨_, .last walk (firstNamed_of_before sector positive walk inside named before),
      fun behind => ?_⟩
    -- the loop takes the entry, after a row that it passes over
    have found : parseStep vol behind { cluster, i := k, path := token } =
        .found (slotAt vol cluster k).unescaped := by
      rw [parseStep_inside sector positive inside, parseEntry_last inside component present,
        if_pos equal]
    have row : ∀ j, first ≤ j → j < k → parseStep vol behind { cluster, i := j, path := token } =
        .next { cluster, i := j + 1, path := token } := by
      intro j low high
      rw [parseStep_inside sector positive (by omega)]
      by_cases skipped : (slotAt vol cluster j).skipped
      · exact parseEntry_skipped (by omega) skipped
      · have different := (unlike j low high).resolve_left skipped
        rw [parseEntry_last (by omega) component (by simpa using skipped), different]
        simp
    obtain ⟨all, passes, members⟩ := Passes.row order row (.found found)
    refine ⟨all, passes, fun c member => ?_⟩
    rcases members c member with rfl | last
    · exact isCluster
    · exact List.mem_singleton.mp last ▸ isCluster
  | @into first cluster k chain token tokens walk order inside named earlier free directory below
      inductionHypothesis =>
    have isCluster : vol.IsCluster cluster :=
      walk.inside cluster walk.follows.start_mem
    have rest : ∀ token ∈ tokens, IsComponent token :=
      fun token member => components token (List.mem_cons_of_mem _ member)
    have more := joinTokens_ne_nil rest below.ne_nil
    obtain ⟨ent, looksUp, scans⟩ := inductionHypothesis rest
    have before : ∀ j < k, ¬ Named token (slotAt vol cluster j) := by
      intro j below other
      by_cases low : j < first
      · exact earlier j low other
      · have skipped := free j (by omega) below
        rw [other.matches_.1] at skipped
        cases skipped
    refine ⟨ent, .into walk (firstNamed_of_before sector positive walk inside named before)
      directory looksUp, fun behind => ?_⟩
    have component := components token (List.mem_cons_self ..)
    -- the loop goes down from the entry, and then as the induction says
    have descends : parseStep vol behind { cluster, i := k, path := joinTokens (token :: tokens) } =
        .next { cluster := (slotAt vol cluster k).clusterBegin, i := 1, path := joinTokens tokens } := by
      obtain ⟨present, equal⟩ := named.matches_
      rw [parseStep_inside sector positive inside, parseEntry_into inside component more present,
        if_pos equal]
    have row : ∀ j, first ≤ j → j < k →
        parseStep vol behind { cluster, i := j, path := joinTokens (token :: tokens) } =
          .next { cluster, i := j + 1, path := joinTokens (token :: tokens) } := by
      intro j low high
      rw [parseStep_inside sector positive (by omega)]
      exact parseEntry_skipped (by omega) (free j low high)
    obtain ⟨clusters, passes, inClusters⟩ := scans behind
    obtain ⟨all, allPasses, members⟩ := Passes.row order row (.next descends passes)
    refine ⟨all, allPasses, fun c member => ?_⟩
    rcases members c member with rfl | further
    · exact isCluster
    · cases further with
      | head => exact isCluster
      | tail _ later => exact inClusters c later

theorem LooksUp.ne_zero {ent : Fat32Entry} (looksUp : LooksUp vol cluster tokens ent) :
    ent ≠ .zero := by
  induction looksUp with
  | @last _ _ _ ent _ named =>
    intro zero
    have first := congrArg (Fat32Entry.name · 0) zero
    simp only [Fat32Entry.unescaped, Fat32Entry.zero] at first
    split at first
    · simp at first
    · exact named.named.live.used first
  | into _ _ _ _ inductionHypothesis => exact inductionHypothesis

/-- The loop comes to the end of a cluster of one sector with nothing found, and what it takes for
    the next cluster is at the end of the volume. -/
inductive Missed (vol : Volume) : Nat → Nat → List CString → Prop
  | ended {cluster : Nat} {tokens : List CString} : vol.bs.sectorsPerCluster = 1 →
      vol.bs.totalSectors ≤ u32 (fat32GetNextCluster vol cluster + 16) →
      Missed vol 16 cluster tokens
  | passed {i cluster : Nat} {tokens : List CString} : i < 16 → (slotAt vol cluster i).skipped →
      Missed vol (i + 1) cluster tokens → Missed vol i cluster tokens
  | unlike {i cluster : Nat} {token : CString} : i < 16 → (slotAt vol cluster i).skipped = false →
      fat32CompareEntryAndPath (slotAt vol cluster i).unescaped token = false →
      Missed vol (i + 1) cluster [token] → Missed vol i cluster [token]
  | dropped {i cluster : Nat} {token : CString} {tokens : List CString} : i < 16 → tokens ≠ [] →
      (slotAt vol cluster i).skipped = false →
      fat32CompareEntryAndPath (slotAt vol cluster i).unescaped token = false →
      Missed vol (i + 1) cluster tokens → Missed vol i cluster (token :: tokens)
  | into {i cluster : Nat} {token : CString} {tokens : List CString} : i < 16 → tokens ≠ [] →
      (slotAt vol cluster i).skipped = false →
      fat32CompareEntryAndPath (slotAt vol cluster i).unescaped token →
      Missed vol 1 (slotAt vol cluster i).clusterBegin tokens → Missed vol i cluster (token :: tokens)

/-- The row of entries ends without a result. -/
theorem Missed.misses {i : Nat} (behind : ParseScan → Mem) (sector : vol.bs.bytesPerSector = 512)
    (positive : 0 < vol.bs.sectorsPerCluster) (components : ∀ token ∈ tokens, IsComponent token)
    (missed : Missed vol i cluster tokens) :
    ∃ clusters, Passes vol behind { cluster, i, path := joinTokens tokens } clusters none := by
  induction missed with
  | ended oneSector atEnd =>
    refine ⟨_, .missing ?_⟩
    simp only [parseStep, oneSector, Nat.mul_one, Nat.one_mul, if_true]
    exact if_pos atEnd
  | passed inside skipped _ inductionHypothesis =>
    obtain ⟨clusters, passes⟩ := inductionHypothesis components
    refine ⟨_, .next ?_ passes⟩
    rw [parseStep_inside sector positive inside, parseEntry_skipped inside skipped]
  | unlike inside present different _ inductionHypothesis =>
    obtain ⟨clusters, passes⟩ := inductionHypothesis components
    refine ⟨_, .next ?_ passes⟩
    have component := components _ (List.mem_singleton_self _)
    rw [parseStep_inside sector positive inside, joinTokens,
      parseEntry_last inside component present, different]
    simp
  | dropped inside nonempty present different _ inductionHypothesis =>
    have rest := fun token member => components token (List.mem_cons_of_mem _ member)
    obtain ⟨clusters, passes⟩ := inductionHypothesis rest
    refine ⟨_, .next ?_ passes⟩
    have component := components _ (List.mem_cons_self ..)
    rw [parseStep_inside sector positive inside,
      parseEntry_into inside component (joinTokens_ne_nil rest nonempty) present, different]
    simp
  | into inside nonempty present equal _ inductionHypothesis =>
    have rest := fun token member => components token (List.mem_cons_of_mem _ member)
    obtain ⟨clusters, passes⟩ := inductionHypothesis rest
    refine ⟨_, .next ?_ passes⟩
    have component := components _ (List.mem_cons_self ..)
    rw [parseStep_inside sector positive inside,
      parseEntry_into inside component (joinTokens_ne_nil rest nonempty) present, if_pos equal]

theorem fat32ParsePath_eq (components : ∀ token ∈ tokens, IsComponent token) (nonempty : tokens ≠ [])
    (passes : Passes vol behind
      { cluster := vol.bs.rootDirFirstCluster, i := 0, path := joinTokens tokens } clusters result)
    {ent : Fat32Entry} :
    (∃ fuel, fat32ParsePath vol behind fuel (absolutePath tokens) = some ent) ↔
      ent = result.getD .zero := by
  have more := joinTokens_ne_nil components nonempty
  have path : absolutePath tokens = slash :: joinTokens tokens := by
    cases tokens with
    | nil => exact absurd rfl nonempty
    | cons token rest => exact absolutePath_cons token rest
  have outcome : ∀ fuel, fat32ParsePath vol behind fuel (absolutePath tokens) =
      (parseLoop vol behind fuel
        { cluster := vol.bs.rootDirFirstCluster, i := 0, path := joinTokens tokens }).map
          fun found => found.getD .zero := by
    intro fuel
    rw [path, fat32ParsePath, if_neg (List.cons_ne_nil _ _), if_neg (by simpa using more)]
    rfl
  constructor
  · rintro ⟨fuel, ended⟩
    rw [outcome] at ended
    obtain ⟨found, loopEnded, rfl⟩ := Option.map_eq_some_iff.mp ended
    rw [passes.eq_of_parseLoop loopEnded]
  · rintro rfl
    exact ⟨clusters.length, by rw [outcome, passes.parseLoop]; rfl⟩

theorem Early.resolves (sector : vol.bs.bytesPerSector = 512)
    (positive : 0 < vol.bs.sectorsPerCluster) (components : ∀ token ∈ tokens, IsComponent token)
    (early : Early vol 0 vol.bs.rootDirFirstCluster tokens) : Resolves vol tokens := by
  intro behind
  obtain ⟨ent, looksUp, scans⟩ := early.found sector positive components
  obtain ⟨clusters, passes, _⟩ := scans behind
  simp only [fat32ParsePath_eq components early.ne_nil passes]
  refine ⟨fun other otherLooksUp => (looksUp.unique otherLooksUp).symm, ?_⟩
  exact iff_of_false looksUp.ne_zero.symm fun none_ => none_ ⟨ent, looksUp⟩

theorem Missed.resolves (sector : vol.bs.bytesPerSector = 512)
    (positive : 0 < vol.bs.sectorsPerCluster) (components : ∀ token ∈ tokens, IsComponent token)
    (nonempty : tokens ≠ []) (missed : Missed vol 0 vol.bs.rootDirFirstCluster tokens)
    (nothing : ¬ ∃ ent, LooksUp vol vol.bs.rootDirFirstCluster tokens ent) :
    Resolves vol tokens := by
  intro behind
  obtain ⟨clusters, passes⟩ := missed.misses behind sector positive components
  simp only [fat32ParsePath_eq components nonempty passes]
  refine ⟨fun ent looksUp => absurd ⟨ent, looksUp⟩ nothing, ?_⟩
  exact iff_of_true rfl nothing

/-! ## A stray entry -/

/-- Bytes behind the sector buffer that read as an entry of the given name and size. -/
def strayEntry (name : Fin 11 → Byte) (size : Byte) : Mem := fun x =>
  if named : x - 512 < 11 then name ⟨x - 512, named⟩
  else if x = 512 + 11 then 0x20 else if x = 512 + 28 then size else 0

def escaped (name : Fin 11 → Byte) : Fin 11 → Byte :=
  if name 0 = 0xE5 then Function.update name 0 0x05 else name

theorem escaped_unescaped {ent : Fat32Entry} {name : Fin 11 → Byte} (plain : name 0 ≠ 0x05)
    (bytes : ent.name = escaped name) :
    ent.skipped = decide (ent.attr &&& 0x0F = 0x0F) ∧ ent.unescaped.name = name := by
  by_cases deleted : name 0 = 0xE5
  · rw [escaped, if_pos deleted] at bytes
    constructor
    · simp [Fat32Entry.skipped, bytes]
    · simp only [Fat32Entry.unescaped, bytes, Function.update_self, if_true, Function.update_idem]
      rw [← deleted, Function.update_eq_self]
  · rw [escaped, if_neg deleted] at bytes
    constructor
    · rw [Fat32Entry.skipped, bytes]
      simp only [deleted, or_false]
    · rw [Fat32Entry.unescaped, bytes, if_neg plain, bytes]

/-- Slot 16 is read from behind the buffer. -/
theorem fat32ReadEntry_stray (name : Fin 11 → Byte) (size : Byte) :
    (fat32ReadEntry vol (strayEntry name size) cluster 16).name = name ∧
      (fat32ReadEntry vol (strayEntry name size) cluster 16).attr = 0x20 ∧
      (fat32ReadEntry vol (strayEntry name size) cluster 16).fileSizeBytes = size.toNat ∧
      (fat32ReadEntry vol (strayEntry name size) cluster 16).clusterBegin = 0 := by
  refine ⟨?_, ?_, ?_, ?_⟩
  · funext k
    have inside := k.isLt
    simp [fat32ReadEntry, slotEntry, strayEntry]
  · simp [fat32ReadEntry, slotEntry, strayEntry]
  · simp [fat32ReadEntry, slotEntry, strayEntry, loadLE]
  · simp [fat32ReadEntry, slotEntry, strayEntry, loadLE]

theorem eq_of_toupper {c control : Byte} (low : control.toNat < 0x20)
    (upper : toupper c = control) : c = control := by
  rw [toupper] at upper
  split at upper
  · next lower =>
    have value := congrArg BitVec.toNat upper
    simp [BitVec.toNat_sub] at value
    omega
  · exact upper

/-- The buffer of the comparison has no control character that the component does not have. -/
theorem dosName_ne {control : Byte} (low : control.toNat < 0x20) (absent : control ∉ token)
    (k : Fin 11) : dosName token k ≠ control := by
  have char : ∀ (l : CString) (i : Nat), (∀ c ∈ l, c ∈ token) → l.getD i 0x20 ≠ control := by
    intro l i sub same
    rw [List.getD_eq_getElem?_getD] at same
    cases at_i : l[i]? with
    | none =>
      simp only [at_i, Option.getD_none] at same
      subst same
      exact absurd low (by decide)
    | some c =>
      rw [at_i, Option.getD_some] at same
      exact absent (same ▸ sub c (List.mem_of_getElem? at_i))
  intro same
  have same := eq_of_toupper low same
  revert same
  split
  · split
    · exact char _ _ fun c member => List.takeWhile_subset _ (List.mem_of_mem_take member)
    · exact char _ _ fun c member => List.mem_of_mem_drop (List.mem_of_mem_take member)
  · exact char _ _ fun c member => List.mem_of_mem_take member

/-! ## Files in the root directory -/

def Matches (vol : Volume) (cluster k : Nat) (token : CString) : Prop :=
  (slotAt vol cluster k).skipped = false ∧
    fat32CompareEntryAndPath (slotAt vol cluster k).unescaped token

instance {k : Nat} : Decidable (Matches vol cluster k token) := inferInstanceAs (Decidable (_ ∧ _))

theorem parseStep_last {i : Nat} (sector : vol.bs.bytesPerSector = 512)
    (positive : 0 < vol.bs.sectorsPerCluster) (component : IsComponent token) (inside : i < 16) :
    parseStep vol behind { cluster, i, path := token } =
      if Matches vol cluster i token then .found (slotAt vol cluster i).unescaped
      else .next { cluster, i := i + 1, path := token } := by
  rw [parseStep_inside sector positive inside]
  cases present : (slotAt vol cluster i).skipped with
  | true => simp [parseEntry_skipped inside present, Matches, present]
  | false => simp [parseEntry_last inside component present, Matches, present]

theorem parseEntry_found {ent : Fat32Entry} {i : Nat} (component : IsComponent token)
    (present : ent.skipped = false) (equal : fat32CompareEntryAndPath ent.unescaped token) :
    parseEntry ent cluster i token = .found ent.unescaped := by
  simp [parseEntry, present, behindSlash_last component, equal]

/-- With an entry of the right name on the stack, slot 16 matches. -/
theorem parseStep_stray (component : IsComponent token) (plain : (0x05 : Byte) ∉ token)
    (size : Byte)
    (goesOn : ¬ (vol.bs.sectorsPerCluster = 1 ∧
      vol.bs.totalSectors ≤ u32 (fat32GetNextCluster vol cluster + 16))) :
    ∃ stray : Fat32Entry, stray.unescaped.fileSizeBytes = size.toNat ∧
      stray.unescaped.clusterBegin = 0 ∧ fat32CompareEntryAndPath stray.unescaped token ∧
      parseStep vol (fun _ => strayEntry (escaped (dosName token)) size)
        { cluster, i := 16, path := token } = .found stray.unescaped := by
  obtain ⟨name, attr, sizeIs, start⟩ :=
    @fat32ReadEntry_stray vol cluster (escaped (dosName token)) size
  obtain ⟨skipped, unescaped⟩ := escaped_unescaped (dosName_ne (by decide) plain 0) name
  have present : (fat32ReadEntry vol (strayEntry (escaped (dosName token)) size) cluster 16).skipped =
      false := by
    rw [skipped, attr]
    decide
  have equal := fat32CompareEntryAndPath_iff.mpr unescaped
  refine ⟨_, (Fat32Entry.unescaped_fileSizeBytes _).trans sizeIs,
    (Fat32Entry.unescaped_clusterBegin _).trans start, equal, ?_⟩
  simp only [parseStep]
  split
  · next wraps =>
    have oneSector : vol.bs.sectorsPerCluster = 1 := by omega
    rw [if_neg (by simpa [oneSector] using goesOn), parseEntry_found component present equal]
  · exact parseEntry_found component present equal

/-- A match makes an entry that is not the zero entry. -/
theorem ne_zero_of_compare {ent : Fat32Entry} (terminated : (0 : Byte) ∉ token)
    (equal : fat32CompareEntryAndPath ent token) : ent ≠ .zero := by
  rintro rfl
  have name := fat32CompareEntryAndPath_iff.mp equal
  exact dosName_ne (by decide) terminated 0 (congrFun name 0).symm

/-- A match in the first 16 slots is what the lookup answers. -/
theorem parsePath_match {k : Nat} {ent : Fat32Entry} (sector : vol.bs.bytesPerSector = 512)
    (positive : 0 < vol.bs.sectorsPerCluster) (component : IsComponent token) (inside : k < 16)
    (matches_ : Matches vol vol.bs.rootDirFirstCluster k token)
    (before : ∀ j < k, ¬ Matches vol vol.bs.rootDirFirstCluster j token) :
    (∃ fuel, fat32ParsePath vol behind fuel (absolutePath [token]) = some ent) ↔
      ent = (slotAt vol vol.bs.rootDirFirstCluster k).unescaped := by
  have components : ∀ t ∈ [token], IsComponent t := by simpa using component
  have row : ∀ j, 0 ≤ j → j < k →
      parseStep vol behind { cluster := vol.bs.rootDirFirstCluster, i := j, path := token } =
        .next { cluster := vol.bs.rootDirFirstCluster, i := j + 1, path := token } := by
    intro j _ below
    rw [parseStep_last sector positive component (by omega), if_neg (before j below)]
  have found : parseStep vol behind
      { cluster := vol.bs.rootDirFirstCluster, i := k, path := token } =
        .found (slotAt vol vol.bs.rootDirFirstCluster k).unescaped := by
    rw [parseStep_last sector positive component inside, if_pos matches_]
  obtain ⟨clusters, passes, _⟩ := Passes.row (Nat.zero_le k) row (.found found)
  exact fat32ParsePath_eq components (List.cons_ne_nil _ _) passes

/-- Without a match there is a stack with which the lookup answers a stray entry, unless it comes to
    the end of the volume. -/
theorem parsePath_stray (sector : vol.bs.bytesPerSector = 512)
    (positive : 0 < vol.bs.sectorsPerCluster) (component : IsComponent token)
    (plain : (0x05 : Byte) ∉ token)
    (unlike : ∀ j < 16, ¬ Matches vol vol.bs.rootDirFirstCluster j token) (size : Byte)
    (goesOn : ¬ (vol.bs.sectorsPerCluster = 1 ∧
      vol.bs.totalSectors ≤ u32 (fat32GetNextCluster vol vol.bs.rootDirFirstCluster + 16))) :
    ∃ stray : Fat32Entry, stray.fileSizeBytes = size.toNat ∧ stray.clusterBegin = 0 ∧
      fat32CompareEntryAndPath stray token ∧
      ∀ ent, (∃ fuel, fat32ParsePath vol (fun _ => strayEntry (escaped (dosName token)) size) fuel
        (absolutePath [token]) = some ent) ↔ ent = stray := by
  have components : ∀ t ∈ [token], IsComponent t := by simpa using component
  obtain ⟨stray, sizeIs, start, equal, found⟩ := parseStep_stray component plain size goesOn
  have row : ∀ j, 0 ≤ j → j < 16 →
      parseStep vol (fun _ => strayEntry (escaped (dosName token)) size)
        { cluster := vol.bs.rootDirFirstCluster, i := j, path := token } =
        .next { cluster := vol.bs.rootDirFirstCluster, i := j + 1, path := token } := by
    intro j _ below
    rw [parseStep_last sector positive component below, if_neg (unlike j below)]
  obtain ⟨clusters, passes, _⟩ := Passes.row (Nat.zero_le 16) row (.found found)
  exact ⟨stray.unescaped, sizeIs, start, equal,
    fun ent => fat32ParsePath_eq components (List.cons_ne_nil _ _) passes⟩

/-- Without a match on a volume that ends behind the root directory, nothing is found. -/
theorem missed_of_end
    (unlike : ∀ j < 16, ¬ Matches vol vol.bs.rootDirFirstCluster j token)
    (oneSector : vol.bs.sectorsPerCluster = 1)
    (atEnd : vol.bs.totalSectors ≤ u32 (fat32GetNextCluster vol vol.bs.rootDirFirstCluster + 16)) :
    Missed vol 0 vol.bs.rootDirFirstCluster [token] := by
  refine Nat.decreasingInduction' (fun i below _ rest => ?_) (Nat.zero_le 16)
    (.ended oneSector atEnd)
  cases skipped : (slotAt vol vol.bs.rootDirFirstCluster i).skipped with
  | true => exact .passed below skipped rest
  | false =>
    have different := unlike i below
    exact .unlike below skipped (by simpa [Matches, skipped] using different) rest

theorem slot_of_unescaped {slot : Fat32Entry} {k : Nat} (member : slot ∈ dirSlots vol chain)
    (same : slot.unescaped = (slotAt vol cluster k).unescaped) : slot = slotAt vol cluster k := by
  obtain ⟨c, _, inCluster⟩ := List.mem_flatMap.mp member
  obtain ⟨j, _, rfl⟩ := List.mem_map.mp inCluster
  have place : ∀ ent : Fat32Entry, ent.unescaped.dirEntryCluster = ent.dirEntryCluster ∧
      ent.unescaped.dirEntryIndex = ent.dirEntryIndex := by
    intro ent
    rw [Fat32Entry.unescaped]
    split <;> exact ⟨rfl, rfl⟩
  have sameCluster := congrArg Fat32Entry.dirEntryCluster same
  have sameIndex := congrArg Fat32Entry.dirEntryIndex same
  rw [(place _).1, (place _).1] at sameCluster
  rw [(place _).2, (place _).2] at sameIndex
  simp only [slotAt, slotEntry] at sameCluster sameIndex
  rw [sameCluster, sameIndex]

/-- A match in the first 16 slots is what the loop answers; if that is right, it is early. -/
theorem early_of_match {k : Nat} (sector : vol.bs.bytesPerSector = 512)
    (positive : 0 < vol.bs.sectorsPerCluster) (component : IsComponent token)
    (terminated : (0 : Byte) ∉ token) (resolves : Resolves vol [token]) (inside : k < 16)
    (matches_ : Matches vol vol.bs.rootDirFirstCluster k token)
    (before : ∀ j < k, ¬ Matches vol vol.bs.rootDirFirstCluster j token) :
    Early vol 0 vol.bs.rootDirFirstCluster [token] := by
  have answer : ∀ ent, (∃ fuel, fat32ParsePath vol (fun _ _ => 0) fuel (absolutePath [token]) =
      some ent) ↔ ent = (slotAt vol vol.bs.rootDirFirstCluster k).unescaped :=
    fun ent => parsePath_match sector positive component inside matches_ before
  obtain ⟨right, zero⟩ := resolves fun _ _ => 0
  by_cases exists_ : ∃ ent, LooksUp vol vol.bs.rootDirFirstCluster [token] ent
  · obtain ⟨ent, looksUp⟩ := exists_
    have same := (answer _).mp (right ent looksUp)
    cases looksUp with
    | into _ _ _ below => cases below
    | @last _ chain _ slot walk first =>
      obtain ⟨named, _, at_slot, _⟩ := first
      have here : slot = slotAt vol vol.bs.rootDirFirstCluster k :=
        slot_of_unescaped (List.mem_of_getElem? at_slot) same
      refine .last walk (Nat.zero_le k) inside (here ▸ named) (fun j below => absurd below (by omega)) ?_
      intro j _ below
      have unlike := before j below
      cases skipped : (slotAt vol vol.bs.rootDirFirstCluster j).skipped with
      | true => exact .inl rfl
      | false => exact .inr (by simpa [Matches, skipped] using unlike)
  · have isZero := (answer _).mp (zero.mpr exists_)
    exact absurd isZero.symm (ne_zero_of_compare terminated matches_.2)

/-- Without a match the loop comes to slot 16, and what is on the stack may match. -/
theorem missed_of_no_match (sector : vol.bs.bytesPerSector = 512)
    (positive : 0 < vol.bs.sectorsPerCluster) (component : IsComponent token)
    (terminated : (0 : Byte) ∉ token) (plain : (0x05 : Byte) ∉ token)
    (resolves : Resolves vol [token])
    (unlike : ∀ j < 16, ¬ Matches vol vol.bs.rootDirFirstCluster j token) :
    Missed vol 0 vol.bs.rootDirFirstCluster [token] ∧
      ¬ ∃ ent, LooksUp vol vol.bs.rootDirFirstCluster [token] ent := by
  have components : ∀ t ∈ [token], IsComponent t := by simpa using component
  by_cases ended : vol.bs.sectorsPerCluster = 1 ∧
      vol.bs.totalSectors ≤ u32 (fat32GetNextCluster vol vol.bs.rootDirFirstCluster + 16)
  · have missed := missed_of_end unlike ended.1 ended.2
    refine ⟨missed, ?_⟩
    obtain ⟨clusters, passes⟩ := missed.misses (fun _ _ => 0) sector positive components
    have answer := @fat32ParsePath_eq _ _ _ _ _ components (by simp) passes
    exact (resolves fun _ _ => 0).2.mp (answer.mpr rfl)
  · -- the stack may hold an entry of that name, of one size or of another
    have answers := fun size => parsePath_stray sector positive component plain unlike size ended
    obtain ⟨stray, size, _, equal, answer⟩ := answers 0
    obtain ⟨other, otherSize, _, _, otherAnswer⟩ := answers 1
    obtain ⟨right, zero⟩ := resolves fun _ => strayEntry (escaped (dosName token)) 0
    by_cases exists_ : ∃ ent, LooksUp vol vol.bs.rootDirFirstCluster [token] ent
    · obtain ⟨ent, looksUp⟩ := exists_
      obtain ⟨otherRight, _⟩ := resolves fun _ => strayEntry (escaped (dosName token)) 1
      have same := (answer ent).mp (right ent looksUp)
      have otherSame := (otherAnswer ent).mp (otherRight ent looksUp)
      rw [← same] at size
      rw [← otherSame, size] at otherSize
      cases otherSize
    · exact absurd ((answer _).mp (zero.mpr exists_)).symm (ne_zero_of_compare terminated equal)

/-- A path is looked up right if everything on it is stored early, or if it means nothing and the
    loop ends in time; for a file in the root directory there is no other way. -/
theorem parsePath_resolves (reaches : DriverReaches vol) (positive : 0 < vol.bs.sectorsPerCluster)
    (components : ∀ token ∈ tokens, IsComponent token) (nonempty : tokens ≠ []) :
    let holds := Early vol 0 vol.bs.rootDirFirstCluster tokens ∨
      Missed vol 0 vol.bs.rootDirFirstCluster tokens ∧
        ¬ ∃ ent, LooksUp vol vol.bs.rootDirFirstCluster tokens ent
    (holds → Resolves vol tokens) ∧
      (tokens.length = 1 → (∀ token ∈ tokens, (0 : Byte) ∉ token ∧ (0x05 : Byte) ∉ token) →
        Resolves vol tokens → holds) := by
  have sector := reaches.sector
  refine ⟨fun holds => ?_, fun single plain resolves => ?_⟩
  · rcases holds with early | ⟨missed, nothing⟩
    · exact early.resolves sector positive components
    · exact missed.resolves sector positive components nonempty nothing
  · obtain ⟨token, rfl⟩ := List.length_eq_one_iff.mp single
    have component := components token (List.mem_singleton_self _)
    obtain ⟨terminated, kanji⟩ := plain token (List.mem_singleton_self _)
    by_cases matched : ∃ k, k < 16 ∧ Matches vol vol.bs.rootDirFirstCluster k token
    · left
      obtain ⟨inside, matches_⟩ := Nat.find_spec matched
      refine early_of_match sector positive component terminated resolves inside matches_ ?_
      exact fun j below other => Nat.find_min matched below ⟨by omega, other⟩
    · right
      refine missed_of_no_match sector positive component terminated kanji resolves ?_
      exact fun j below other => matched ⟨j, below, other⟩

/-! ## A directory behind a file -/

/-- A slot of 32 bytes, of the first of January 2024. -/
def slotBytes (name : CString) (attr : Byte) (cluster size : Nat) : CString :=
  (List.range 11).map (fun k => name.getD k 0x20) ++ [attr] ++ List.replicate 12 0 ++ [0x21, 0x58] ++
    [BitVec.ofNat 8 cluster, 0, BitVec.ofNat 8 size, 0, 0, 0]

/-- A volume with clusters 2 to 5 in chains of their own. -/
def fourClusters : Volume :=
  sampleVolume [0x0FFFFFF8, 0x0FFFFFFF, 0x0FFFFFFF, 0x0FFFFFFF, 0x0FFFFFFF, 0x0FFFFFFF]

/-- The root directory has the file "X" and the directory "D", which is in the given slot of the
    two; "D" has the file "F". -/
def treeVolume (slot : Nat) : Volume :=
  let root := [slotBytes [0x58] 0x20 5 7, slotBytes [0x44] 0x10 3 0]
  let root := if slot = 0 then root.reverse else root
  let sub := [slotBytes [0x2E] 0x10 3 0, slotBytes [0x2E, 0x2E] 0x10 0 0,
    slotBytes [0x46] 0x20 4 9]
  { fourClusters with
    disk := fun x =>
      if x < 33 * 512 then 0
      else if x < 34 * 512 then root.flatten.getD (x - 33 * 512) 0
      else if x < 35 * 512 then sub.flatten.getD (x - 34 * 512) 0
      else 0 }

/-- "/D/F" -/
def fPath : List CString := [[0x44], [0x46]]

theorem treeVolume_chain {slot cluster : Nat} (dir : cluster = 2 ∨ cluster = 3) :
    FatChain (treeVolume slot) cluster [cluster] := by
  have ends : fatSucc fourClusters cluster = none := by
    rcases dir with rfl | rfl <;> decide +kernel
  have entries : (treeVolume slot).entries = 128 := by
    simp [Volume.entries, treeVolume, fourClusters, sampleVolume]
  refine ⟨.last ends, ?_⟩
  simp only [List.mem_singleton, forall_eq, Volume.IsCluster, entries]
  omega

theorem fourClusters_reaches : DriverReaches fourClusters := by
  constructor <;> decide

theorem treeVolume_reaches {slot : Nat} : DriverReaches (treeVolume slot) :=
  fourClusters_reaches.congr rfl rfl

theorem named_of_plain {base : CString} {ent : Fat32Entry} (nonempty : base ≠ [])
    (short : base.length ≤ 8) (absent : dot ∉ base)
    (live : ent.name 0 ≠ 0 ∧ ent.name 0 ≠ 0xE5 ∧ ent.attr &&& 0x0F ≠ 0x0F ∧ ent.isVolumeLabel = false)
    (name : ∀ k, ent.unescaped.name k = padded base [] k) : Named base ent :=
  ⟨⟨live.1, live.2.1, live.2.2.1, live.2.2.2⟩, funext name ▸ .plain nonempty short absent⟩

theorem not_named {base : CString} {ent : Fat32Entry}
    (different : fat32CompareEntryAndPath ent.unescaped base = false) : ¬ Named base ent := by
  intro named
  rw [named.matches_.2] at different
  cases different

theorem treeVolume_named_d : Named [0x44] (slotAt (treeVolume 1) 2 1) ∧
    Named [0x44] (slotAt (treeVolume 0) 2 0) := by
  constructor <;>
    exact named_of_plain (by decide) (by decide) (by decide) (by decide +kernel) (by decide +kernel)

theorem treeVolume_named_f : Named [0x46] (slotAt (treeVolume 1) 3 2) ∧
    Named [0x46] (slotAt (treeVolume 0) 3 2) := by
  constructor <;>
    exact named_of_plain (by decide) (by decide) (by decide) (by decide +kernel) (by decide +kernel)

theorem treeVolume_looksUp :
    LooksUp (treeVolume 1) 2 fPath (slotAt (treeVolume 1) 3 2).unescaped := by
  have root := @treeVolume_chain 1 2 (.inl rfl)
  have sub := @treeVolume_chain 1 3 (.inr rfl)
  have d : FirstNamed (dirSlots (treeVolume 1) [2]) [0x44] (slotAt (treeVolume 1) 2 1) := by
    refine firstNamed_of_before rfl (by decide) root (by decide) treeVolume_named_d.1 fun j below => ?_
    obtain rfl : j = 0 := by omega
    exact not_named (by decide +kernel)
  have f : FirstNamed (dirSlots (treeVolume 1) [3]) [0x46] (slotAt (treeVolume 1) 3 2) := by
    refine firstNamed_of_before rfl (by decide) sub (by decide) treeVolume_named_f.1 fun j below => ?_
    obtain rfl | rfl : j = 0 ∨ j = 1 := by omega
    all_goals exact not_named (by decide +kernel)
  have begin_ : (slotAt (treeVolume 1) 2 1).clusterBegin = 3 := by decide +kernel
  exact .into root d (by decide +kernel) (begin_ ▸ .last sub f)

/-- The loop drops "D" of "/D/F" at the first entry of the root directory and looks for "F" there. -/
theorem component_dropped : ¬ Resolves (treeVolume 1) fPath := by
  intro resolves
  have executed : (parseLoop (treeVolume 1) (fun _ _ => 0) 40
      (parseStart (treeVolume 1) (absolutePath fPath))).map Option.isSome = some false := by
    decide +kernel
  obtain ⟨found, ended, nothing⟩ := Option.map_eq_some_iff.mp executed
  cases found with
  | some => cases nothing
  | none =>
    have zero : fat32ParsePath (treeVolume 1) (fun _ _ => 0) 40 (absolutePath fPath) = some .zero := by
      rw [fat32ParsePath, if_neg (by decide), if_neg (by decide), ended]
      rfl
    exact (resolves _).2.mp ⟨40, zero⟩ ⟨_, treeVolume_looksUp⟩

/-- Stored in the first slot, "D" is found, and "F" in it. -/
theorem parsePath_resolves_fPath : Resolves (treeVolume 0) fPath := by
  have root := @treeVolume_chain 0 2 (.inl rfl)
  have sub := @treeVolume_chain 0 3 (.inr rfl)
  have begin_ : (slotAt (treeVolume 0) 2 0).clusterBegin = 3 := by decide +kernel
  have f : Early (treeVolume 0) 1 3 [[0x46]] := by
    refine .last sub (by decide) (by decide) treeVolume_named_f.2 (fun j below => ?_) fun j low high => ?_
    · obtain rfl : j = 0 := by omega
      exact not_named (by decide +kernel)
    · obtain rfl : j = 1 := by omega
      exact .inr (by decide +kernel)
  have early : Early (treeVolume 0) 0 2 fPath := by
    refine .into root le_rfl (by decide) treeVolume_named_d.2 (fun j below => absurd below (by omega))
      (fun j low high => absurd high (by omega)) (by decide +kernel) (begin_ ▸ f)
  refine (parsePath_resolves treeVolume_reaches (by decide) ?_ (by decide)).1 (.inl early)
  simp [fPath, IsComponent, slash]

end HanOS.Fs
