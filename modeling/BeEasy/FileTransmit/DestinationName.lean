import BeEasy.FileTransmit.Peers
import BeEasy.FileTransmit.SenderResult

/-!
# FileTransmit — Destination name

Under which name the receiver opens the file. The name passes through the
globals of the sending `main`, the two fields of START and `createFile`; what
comes out is compared with the source's name in the directory that `-p`
names, or in its own directory without `-p`.
-/

namespace BeEasy.FileTransmit

open CVerif

def slash : Byte := 47

/-! ## The options of `main` -/

/-- The two options that set a name: `-f` with what `realpath` made of its
argument, if anything, and `-p`. -/
inductive CmdOption where
  | f (realpath : Option (List Byte))
  | p (optarg : List Byte)

/-- The globals `filename` and `filepath`, as strings. -/
structure Names where
  filename : List Byte
  filepath : List Byte
  deriving DecidableEq

/-- What `strncpy` leaves in one of them. -/
def stored (str : List Byte) : List Byte := stringAt (strncpy str (MAXLEN - 1))

/-- One turn of the `getopt` loop; without a real path `main` exits. -/
def setOption (names : Names) : CmdOption → Option Names
  | .f none => none
  | .f (some str) => some { names with filename := stored str }
  | .p optarg => some { names with filepath := stored optarg }

def setOptions : Names → List CmdOption → Option Names
  | names, [] => some names
  | names, option :: options => (setOption names option).bind (setOptions · options)

/-- The names a client starts `fileSend` with, unless `main` exits. -/
def clientNames (options : List CmdOption) : Option Names :=
  (setOptions ⟨[], []⟩ options).bind fun names =>
    if names.filename = [] then none
    else if names.filepath = [] then some { names with filepath := stored names.filename }
    else some names

/-! ## The name that is meant -/

/-- A path as `realpath` returns it: the root, or an entry of a directory. -/
inductive RealPath where
  | root
  | entry (dir base : List Byte) (base_ne : base ≠ []) (base_slash : slash ∉ base)
      (dir_slash : dir.getLast? ≠ some slash) (noNul : (0 : Byte) ∉ dir ++ base)

namespace RealPath

/-- The path itself. -/
def str : RealPath → List Byte
  | root => [slash]
  | entry dir base .. => dir ++ slash :: base

/-- The directory it is in. -/
def directory : RealPath → List Byte
  | root => [slash]
  | entry dir .. => if dir = [] then [slash] else dir

/-- Its last part. -/
def name : RealPath → List Byte
  | root => [slash]
  | entry _ base .. => base

end RealPath

/-- A name in a directory, with one slash between them. -/
def join (dir name : List Byte) : List Byte :=
  if dir.getLast? = some slash then dir ++ name else dir ++ slash :: name

/-- The source's name in the directory `dir`, or in its own when there is
none. -/
def intended (src : RealPath) (dir : List Byte) : List Byte :=
  join (if dir = [] then src.directory else dir) src.name

def CmdOption.source? : CmdOption → Option (List Byte)
  | .f path => path
  | .p _ => none

def CmdOption.directory? : CmdOption → Option (List Byte)
  | .f _ => none
  | .p dir => some dir

/-- The last `-f` names the source and the last `-p`, if any, the directory. -/
structure Given (options : List CmdOption) (src : RealPath) (dir : List Byte) : Prop where
  resolved : .f none ∉ options
  source : (options.filterMap CmdOption.source?).getLast? = some src.str
  directory : (options.filterMap CmdOption.directory?).getLast?.getD [] = dir
  noNul : (0 : Byte) ∉ dir

/-- The directory ends in a slash, the name fits behind it, and the source is
short enough to keep its name; or, without a directory, the source is as long
as the name may be. -/
def NameFits (src : RealPath) (dir : List Byte) : Prop :=
  if dir = [] then src = .root ∨ src.str.length = MAXLEN - 2
  else dir.getLast? = some slash ∧ dir.length + src.name.length ≤ MAXLEN - 2 ∧
    (basename (src.str.take (MAXLEN - 1))).take (MAXLEN - 2 - dir.length) = src.name

/-! ## What `main` makes of the options -/

section Options

variable {options : List CmdOption} {src : RealPath} {dir : List Byte}

theorem stored_eq {str : List Byte} (h : (0 : Byte) ∉ str) : stored str = str.take (MAXLEN - 1) :=
  stringAt_strncpy h (MAXLEN - 1)

/-- A later option of a kind replaces the earlier ones. -/
theorem setOptions_eq (names : Names) (h : .f none ∉ options) :
    setOptions names options = some
      ⟨((options.filterMap CmdOption.source?).getLast?.map stored).getD names.filename,
        ((options.filterMap CmdOption.directory?).getLast?.map stored).getD names.filepath⟩ := by
  induction options generalizing names with
  | nil => rfl
  | cons option options ih =>
      obtain ⟨hfirst, hrest⟩ := List.ne_and_not_mem_of_not_mem_cons h
      cases option with
      | f path =>
          cases path with
          | none => exact absurd rfl hfirst
          | some str =>
              refine (ih { names with filename := stored str } hrest).trans ?_
              have hsources : (CmdOption.f (some str) :: options).filterMap CmdOption.source?
                  = str :: options.filterMap CmdOption.source? := rfl
              rw [hsources, List.getLast?_cons]
              cases (options.filterMap CmdOption.source?).getLast? <;> rfl
      | p optarg =>
          refine (ih { names with filepath := stored optarg } hrest).trans ?_
          have hdirs : (CmdOption.p optarg :: options).filterMap CmdOption.directory?
              = optarg :: options.filterMap CmdOption.directory? := rfl
          rw [hdirs, List.getLast?_cons]
          cases (options.filterMap CmdOption.directory?).getLast? <;> rfl

theorem RealPath.noNul (src : RealPath) : (0 : Byte) ∉ src.str := by
  cases src with
  | root => decide
  | entry dir base _ _ _ hnul =>
      intro hmem
      rcases List.mem_append.mp hmem with h | h
      · exact hnul (List.mem_append_left _ h)
      · rcases List.mem_cons.mp h with h | h
        · exact absurd h (by decide)
        · exact hnul (List.mem_append_right _ h)

theorem RealPath.str_ne_nil (src : RealPath) : src.str ≠ [] := by
  cases src with
  | root => decide
  | entry dir base => simp [str]

/-- The two names at the start of `fileSend`. -/
theorem clientNames_eq (h : Given options src dir) : clientNames options = some
    ⟨src.str.take (MAXLEN - 1),
      if dir = [] then src.str.take (MAXLEN - 1) else dir.take (MAXLEN - 1)⟩ := by
  have hsrc := stored_eq src.noNul
  have hdir := stored_eq h.noNul
  have hne : src.str.take (MAXLEN - 1) ≠ [] := by
    rw [Ne, List.take_eq_nil_iff]
    exact not_or.mpr ⟨by decide, src.str_ne_nil⟩
  have hcut : stored (src.str.take (MAXLEN - 1)) = src.str.take (MAXLEN - 1) := by
    rw [stored_eq (fun hmem => src.noNul (List.mem_of_mem_take hmem)), List.take_take, Nat.min_self]
  have hpath : ((options.filterMap CmdOption.directory?).getLast?.map stored).getD []
      = dir.take (MAXLEN - 1) := by
    rw [← hdir, ← h.directory]
    cases (options.filterMap CmdOption.directory?).getLast? <;> rfl
  rw [clientNames, setOptions_eq _ h.resolved, h.source, hpath]
  by_cases hempty : dir = []
  · simp [hempty, hsrc, hcut, hne]
  · have htake : dir.take (MAXLEN - 1) ≠ [] := by
      rw [Ne, List.take_eq_nil_iff]
      exact not_or.mpr ⟨by decide, hempty⟩
    simp [hempty, hsrc, hne, htake]

end Options

/-! ## What START makes of the names -/

/-- Whatever the pass opens a file as, it is this name. -/
def OpensAs (p : Progress RecvState Int Fault) (name : List Byte) : Prop :=
  ∀ r file, p.state? = some r → r.fp = some file → file.name = name

/-- The copies before the last cut are no further cuts. -/
theorem take_cut {m n : Nat} (h : m ≤ n) (xs ys : List Byte) :
    (xs.take n ++ ys).take m = (xs ++ ys).take m := by
  rw [List.take_append, List.take_append, List.take_take, List.length_take, Nat.min_eq_left h]
  have hrest : m - min n xs.length = m - xs.length := by omega
  rw [hrest]

theorem take_joined {m n : Nat} (h : m ≤ n) (xs ys : List Byte) :
    (xs.take n ++ ys.take n).take m = (xs ++ ys).take m := by
  rw [take_cut h, List.take_append, List.take_append, List.take_take, Nat.min_eq_left (by omega)]

section Start

variable {host sender : Host} {r : RecvState} {ev : RecvEvent} {pkt : Packet} {attr : FileAttr}

theorem createFile_name {frame : EthernetFrame} {rest : List Byte}
    (hdata : frame.data = attr.image sender ++ rest) (hpath : (0 : Byte) ∉ attr.dstpath)
    (hname : (0 : Byte) ∉ attr.dstfileName) :
    (createFile host { r with frame } true).state.fp = some
      ⟨r.history.length, (attr.dstpath ++ attr.dstfileName).take (MAXLEN - 2), [], []⟩ := by
  show some (OutFile.mk _ ((stringAt (field frame.data 16 (MAXLEN - 1))
    ++ stringAt (field frame.data 144 (MAXLEN - 1))).take (MAXLEN - 2)) [] []) = _
  rw [hdata, FileAttr.field_dstpath, FileAttr.field_dstfileName, stringAt_strncpy hpath,
    stringAt_strncpy hname, take_joined (by decide)]

/-- A START that is accepted opens its two names put together and cut. -/
theorem opensAs_start_iff (host : Host) (r : RecvState) (hcarry : Carries sender pkt (.start attr))
    (hrecv : ev.recvfrom = some pkt) (hpath : (0 : Byte) ∉ attr.dstpath)
    (hname : (0 : Byte) ∉ attr.dstfileName) (name : List Byte) :
    OpensAs (fileRecvPass host r ev) name ↔
      ev.fopen = false ∨ (attr.dstpath ++ attr.dstfileName).take (MAXLEN - 2) = name := by
  obtain ⟨frame, rest, hr, hdata, hst⟩ := received_start host r hcarry hrecv
  cases hopen : ev.fopen with
  | false =>
      rw [fileRecvPass_notCreated hr hst hopen]
      refine iff_of_true ?_ (.inl rfl)
      intro t file ht hfile
      cases ht
      cases hfile
  | true =>
      rw [fileRecvPass_created hr hst hopen]
      have hfp : ((createFile host { r with frame } true).state.reply host (.fopen true) SUCCESS
          ev.sendto).fp = _ := createFile_name hdata hpath hname
      constructor
      · intro hopens
        exact .inr (hopens _ _ rfl hfp)
      · intro hor
        have heq := hor.resolve_left nofun
        intro t file ht hfile
        cases ht
        cases hfp.symm.trans hfile
        exact heq

/-- The START that `fileSend` sends carries the two globals. -/
theorem started_packet {filename filepath : List Byte} {toAddr fromAddr : Mac} {sev : SendEvent}
    {t : SendState} (hturn : fileSendTurn sender (SendState.init filename filepath toAddr fromAddr)
      sev = .running t) (hpkt : t.sent = [pkt]) :
    ∃ attr, Carries sender pkt (.start attr) ∧ attr.dstpath = filepath ∧
      attr.dstfileName = basename filename := by
  have hspec := fileSendTurn_spec sender (SendState.init filename filepath toAddr fromAddr) sev
  rw [hturn] at hspec
  cases hspec with
  | issued hask hsend =>
      cases hask with
      | start hpc =>
          cases hpkt
          exact ⟨_, ⟨trivial, _, _, rfl⟩, rfl, rfl⟩
      | data hpc | finish hpc => cases hpc
  | startAcked hpc | chunkAcked hpc => cases hpc

end Start

/-! ## When the two names are the one that is meant -/

section Fits

variable {src : RealPath} {dir : List Byte}

theorem RealPath.name_ne_nil (src : RealPath) : src.name ≠ [] := by
  cases src with
  | root => decide
  | entry dir base hne => exact hne

/-- In its own directory an entry has its own path. -/
theorem intended_entry {dir base : List Byte} (hne : base ≠ []) (hbase : slash ∉ base)
    (hdir : dir.getLast? ≠ some slash) (hnul : (0 : Byte) ∉ dir ++ base) :
    intended (.entry dir base hne hbase hdir hnul) [] = dir ++ slash :: base := by
  rw [intended, if_pos rfl, RealPath.directory, RealPath.name]
  by_cases hempty : dir = []
  · rw [hempty, if_pos rfl]
    rfl
  · rw [if_neg hempty, join, if_neg hdir]

/-- Without a directory the name is put behind the path itself, and is cut off
again exactly when the path is as long as the cut. -/
theorem ownDirectory_iff (src : RealPath) :
    (src.str ++ basename (src.str.take (MAXLEN - 1))).take (MAXLEN - 2) = intended src [] ↔
      src = .root ∨ src.str.length = MAXLEN - 2 := by
  cases src with
  | root => exact iff_of_true (by decide) (.inl rfl)
  | entry dir base hne hbase hdir hnul =>
      rw [intended_entry]
      have hlast : 0 < (basename ((RealPath.entry dir base hne hbase hdir hnul).str.take
          (MAXLEN - 1))).length := List.length_pos_iff.mpr (basename_ne_nil _)
      show (dir ++ slash :: base ++ _).take (MAXLEN - 2) = _ ↔ _ ∨ (dir ++ slash :: base).length = _
      generalize basename _ = last at hlast ⊢
      generalize dir ++ slash :: base = path
      constructor
      · intro heq
        have hlen := congrArg List.length heq
        rw [List.length_take, List.length_append] at hlen
        exact .inr (by omega)
      · intro hor
        have hlen : path.length = MAXLEN - 2 := hor.resolve_left nofun
        exact List.take_left' hlen

/-- With one it is put behind it as it is. -/
theorem givenDirectory_iff (src : RealPath) (dir path : List Byte) :
    (dir ++ basename path).take (MAXLEN - 2) = join dir src.name ↔
      dir.getLast? = some slash ∧ dir.length + src.name.length ≤ MAXLEN - 2 ∧
        (basename path).take (MAXLEN - 2 - dir.length) = src.name := by
  constructor
  · intro heq
    have hlen : (join dir src.name).length ≤ MAXLEN - 2 := heq ▸ List.length_take_le _ _
    by_cases hend : dir.getLast? = some slash
    · rw [join, if_pos hend] at heq hlen
      rw [List.length_append] at hlen
      rw [List.take_append, List.take_of_length_le (by omega)] at heq
      exact ⟨hend, hlen, List.append_cancel_left heq⟩
    · -- the slash that is missing would have to come from the last part
      rw [join, if_neg hend] at heq hlen
      rw [List.length_append] at hlen
      rw [List.take_append, List.take_of_length_le (by omega)] at heq
      have hpart := List.append_cancel_left heq
      have hslash : slash ∈ basename path :=
        List.mem_of_mem_take (hpart ▸ List.mem_cons_self : slash ∈ (basename path).take _)
      rw [basename_slash hslash] at hpart
      have hone := congrArg List.length hpart
      rw [List.length_take, List.length_cons, List.length_cons, List.length_nil] at hone
      exact absurd (List.length_eq_zero_iff.mp (by omega)) src.name_ne_nil
  · intro ⟨hend, hlen, hname⟩
    rw [join, if_pos hend, List.take_append, List.take_of_length_le (by omega), hname]

theorem nameFits_iff (src : RealPath) (dir : List Byte) :
    ((if dir = [] then src.str.take (MAXLEN - 1) else dir.take (MAXLEN - 1))
      ++ basename (src.str.take (MAXLEN - 1))).take (MAXLEN - 2) = intended src dir ↔
      NameFits src dir := by
  by_cases hempty : dir = []
  · rw [if_pos hempty, take_cut (by decide), NameFits, if_pos hempty, hempty]
    exact ownDirectory_iff src
  · rw [if_neg hempty, take_cut (by decide), NameFits, if_neg hempty, intended, if_neg hempty]
    exact givenDirectory_iff src dir _

/-- A source that `main` stores whole keeps its name. -/
theorem basename_short (hlen : src.str.length ≤ MAXLEN - 1) :
    basename (src.str.take (MAXLEN - 1)) = src.name := by
  rw [List.take_of_length_le hlen]
  cases src with
  | root => rfl
  | entry dir base hne hbase => exact basename_append dir hne hbase

/-- For such a source the slash and the length of the name decide. -/
theorem nameFits_short_iff (hlen : src.str.length ≤ MAXLEN - 1) (hdir : dir ≠ []) :
    NameFits src dir ↔
      dir.getLast? = some slash ∧ dir.length + src.name.length ≤ MAXLEN - 2 := by
  rw [NameFits, if_neg hdir, basename_short hlen]
  constructor
  · intro ⟨hend, hfits, _⟩
    exact ⟨hend, hfits⟩
  · intro ⟨hend, hfits⟩
    exact ⟨hend, hfits, List.take_of_length_le (by omega)⟩

end Fits

/-- **The receiver opens the name that is meant exactly when it fits**, for
every source, every use of `-p` and every state of the receiver: `fopen`
fails, or the directory already ends in a slash and nothing was cut. -/
theorem destination_iff (sender host : Host) {options : List CmdOption} {src : RealPath}
    {dir : List Byte} (hgiven : Given options src dir) {names : Names}
    (hnames : clientNames options = some names) {toAddr fromAddr : Mac} {sev : SendEvent}
    {t : SendState} (hturn : fileSendTurn sender
      (SendState.init names.filename names.filepath toAddr fromAddr) sev = .running t)
    {pkt : Packet} (hpkt : t.sent = [pkt]) (r : RecvState) {ev : RecvEvent}
    (hrecv : ev.recvfrom = some pkt) :
    OpensAs (fileRecvPass host r ev) (intended src dir) ↔ ev.fopen = false ∨ NameFits src dir := by
  cases (clientNames_eq hgiven).symm.trans hnames
  obtain ⟨attr, hcarry, hpath, hname⟩ := started_packet hturn hpkt
  have hcut : (0 : Byte) ∉ src.str.take (MAXLEN - 1) :=
    fun hmem => src.noNul (List.mem_of_mem_take hmem)
  have hnoNul : (0 : Byte) ∉ attr.dstpath := by
    rw [hpath]
    split
    · exact hcut
    · exact fun hmem => hgiven.noNul (List.mem_of_mem_take hmem)
  rw [opensAs_start_iff host r hcarry hrecv hnoNul (hname ▸ noNul_basename hcut), hpath, hname,
    nameFits_iff]

/-- The file "/a". -/
def fileA : RealPath :=
  .entry [] [97] (by decide) (by decide) (by decide) (by decide)

/-- The directory "/tmp". -/
def tmpDir : List Byte := [47, 116, 109, 112]

/-- With `-p /tmp/` the file "/a" becomes "/tmp/a". -/
theorem destination_iff_tmp :
    ∃ names t pkt, clientNames [.f (some [47, 97]), .p (tmpDir ++ [slash])] = some names ∧
      fileSendTurn .little (SendState.init names.filename names.filepath blankMac blankMac)
        startSent = .running t ∧ t.sent = [pkt] ∧
      OpensAs (fileRecvPass .big (RecvState.init blankFrame) (deliver pkt))
        [47, 116, 109, 112, 47, 97] := by
  have hgiven : Given [.f (some [47, 97]), .p (tmpDir ++ [slash])] fileA (tmpDir ++ [slash]) :=
    ⟨by simp, rfl, rfl, by decide⟩
  have hfits : NameFits fileA (tmpDir ++ [slash]) :=
    (nameFits_short_iff (by decide) (by decide)).mpr ⟨rfl, by decide⟩
  have hnames := clientNames_eq hgiven
  have hturn := @fileSendTurn_started .little (SendState.init (fileA.str.take (MAXLEN - 1))
    ((tmpDir ++ [slash]).take (MAXLEN - 1)) blankMac blankMac) startSent blankMac blankMac []
    rfl rfl rfl rfl rfl rfl
  exact ⟨_, _, _, hnames, hturn, rfl, (destination_iff .little .big hgiven hnames hturn rfl
    (RecvState.init blankFrame) rfl).mpr (.inr hfits)⟩

/-- With `-p /tmp` it becomes "/tmpa". -/
theorem slash_not_supplied :
    ∃ names t pkt, clientNames [.f (some [47, 97]), .p tmpDir] = some names ∧
      fileSendTurn .little (SendState.init names.filename names.filepath blankMac blankMac)
        startSent = .running t ∧ t.sent = [pkt] ∧
      ¬ OpensAs (fileRecvPass .big (RecvState.init blankFrame) (deliver pkt))
        (intended fileA tmpDir) := by
  have hturn := @fileSendTurn_started .little (SendState.init [47, 97] tmpDir blankMac blankMac)
    startSent blankMac blankMac [] rfl rfl rfl rfl rfl rfl
  refine ⟨⟨[47, 97], tmpDir⟩, _, _, by decide, hturn, rfl, ?_⟩
  obtain ⟨attr, hcarry, hpath, hname⟩ := started_packet hturn rfl
  rw [opensAs_start_iff .big (RecvState.init blankFrame) hcarry rfl (by rw [hpath]; decide)
    (by rw [hname]; decide), hpath, hname]
  decide

end BeEasy.FileTransmit
