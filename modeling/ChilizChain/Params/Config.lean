import Mathlib.Algebra.Group.Nat.Defs
import Mathlib.Data.Int.Basic

/-! # Chain configurations

The fork schedule of a network, the rules it puts in force at a block, and the check that a node
runs when it starts with another schedule than the one its database was written under. Fork
blocks are `*big.Int` in the code, fork times `*uint64`; a missing one is a fork that is not
scheduled. -/

namespace ChilizChain.Params

/-- The fields of the configuration whose names end in `Block`. -/
inductive BlockFork
  | homestead | daoFork | eip150 | eip155 | eip158 | byzantium | constantinople | petersburg
  | istanbul | muirGlacier | berlin | yoloV3 | catalyst | london | arrowGlacier | grayGlacier
  | mergeNetsplit | runtimeUpgrade | deployOrigin | deploymentHookFix | deployerFactory
  | ramanujan | niels | mirrorSync | bruno | euler | gibbs | nano | moran | planck | luban | plato
  | hertz | hertzfix
deriving DecidableEq

/-- The fields of the configuration whose names end in `Time`. -/
inductive TimeFork
  | dragon8 | dragon8Fix | snake8 | pepper8 | pipe8 | deployerProxySunset | shanghai | kepler
  | feynman | feynmanFix | cancun | haber | haberFix | bohr | pascal | prague | lorentz | maxwell
  | fermi | osaka | mendel | bpo1 | bpo2 | bpo3 | bpo4 | bpo5 | amsterdam | pasteur | verkle
deriving DecidableEq

structure ChainConfig where
  chainID : Option ℤ
  block : BlockFork → Option ℤ
  daoForkSupport : Bool
  time : TimeFork → Option ℕ
  /-- There is a `Parlia` section. -/
  parlia : Bool

/-- A Parlia network on which no fork is scheduled. -/
instance : Inhabited ChainConfig where
  default := ⟨none, fun _ => none, false, fun _ => none, true⟩

/-! ## Which forks are active -/

def isBlockForked (s : Option ℤ) (head : ℤ) : Bool :=
  match s with
  | none => false
  | some s => s ≤ head

def isTimestampForked (s : Option ℕ) (head : ℕ) : Bool :=
  match s with
  | none => false
  | some s => s ≤ head

namespace ChainConfig

variable (c : ChainConfig)

variable (num : ℤ) (time : ℕ)

def isHomestead : Bool := isBlockForked (c.block .homestead) num
def isDAOFork : Bool := isBlockForked (c.block .daoFork) num
def isEIP150 : Bool := isBlockForked (c.block .eip150) num
def isEIP155 : Bool := isBlockForked (c.block .eip155) num
def isEIP158 : Bool := isBlockForked (c.block .eip158) num
def isByzantium : Bool := isBlockForked (c.block .byzantium) num
def isConstantinople : Bool := isBlockForked (c.block .constantinople) num
def isIstanbul : Bool := isBlockForked (c.block .istanbul) num
def isBerlin : Bool := isBlockForked (c.block .berlin) num
def isLondon : Bool := isBlockForked (c.block .london) num
def isNano : Bool := isBlockForked (c.block .nano) num
def isMoran : Bool := isBlockForked (c.block .moran) num
def isPlanck : Bool := isBlockForked (c.block .planck) num
def isLuban : Bool := isBlockForked (c.block .luban) num
def isPlato : Bool := isBlockForked (c.block .plato) num
def isHertz : Bool := isBlockForked (c.block .hertz) num
def isHertzfix : Bool := isBlockForked (c.block .hertzfix) num

/-- A network that does not mention Petersburg switches to it together with Constantinople. -/
def isPetersburg : Bool :=
  isBlockForked (c.block .petersburg) num ||
    (c.block .petersburg).isNone && isBlockForked (c.block .constantinople) num

/-- The forks by time that also need London. -/
def isForkedAfterLondon (fork : TimeFork) (num : ℤ) (time : ℕ) : Bool :=
  c.isLondon num && isTimestampForked (c.time fork) time

def isShanghai : Bool := c.isForkedAfterLondon .shanghai num time
def isKepler : Bool := c.isForkedAfterLondon .kepler num time
def isFeynman : Bool := c.isForkedAfterLondon .feynman num time
def isCancun : Bool := c.isForkedAfterLondon .cancun num time
def isHaber : Bool := c.isForkedAfterLondon .haber num time
def isBohr : Bool := c.isForkedAfterLondon .bohr num time
def isPascal : Bool := c.isForkedAfterLondon .pascal num time
def isPrague : Bool := c.isForkedAfterLondon .prague num time
def isLorentz : Bool := c.isForkedAfterLondon .lorentz num time
def isMaxwell : Bool := c.isForkedAfterLondon .maxwell num time
def isFermi : Bool := c.isForkedAfterLondon .fermi num time
def isOsaka : Bool := c.isForkedAfterLondon .osaka num time
def isMendel : Bool := c.isForkedAfterLondon .mendel num time
def isAmsterdam : Bool := c.isForkedAfterLondon .amsterdam num time
def isPasteur : Bool := c.isForkedAfterLondon .pasteur num time
def isVerkle : Bool := c.isForkedAfterLondon .verkle num time

def isDragon8 : Bool := isTimestampForked (c.time .dragon8) time
def isDragon8Fix : Bool := isTimestampForked (c.time .dragon8Fix) time
def isSnake8 : Bool := isTimestampForked (c.time .snake8) time
def isPepper8Time : Bool := isTimestampForked (c.time .pepper8) time
def isPipe8Time : Bool := isTimestampForked (c.time .pipe8) time
def isDeployerProxySunsetTime : Bool :=
  isTimestampForked (c.time .deployerProxySunset) time

def isInBSC : Bool := c.parlia

end ChainConfig

/-! ## Rules -/

@[ext]
structure Rules where
  chainID : ℤ
  isHomestead : Bool
  isEIP150 : Bool
  isEIP155 : Bool
  isEIP158 : Bool
  isEIP2929 : Bool
  isEIP4762 : Bool
  isByzantium : Bool
  isConstantinople : Bool
  isPetersburg : Bool
  isIstanbul : Bool
  isBerlin : Bool
  isLondon : Bool
  hasRuntimeUpgrade : Bool
  hasDeployOrigin : Bool
  hasDeploymentHookFix : Bool
  deployerFactory : Bool
  dragon8 : Bool
  dragon8Fix : Bool
  snake8 : Bool
  deployerProxySunset : Bool
  isCayenne : Bool
  isMerge : Bool
  isNano : Bool
  isMoran : Bool
  isPlanck : Bool
  isLuban : Bool
  isPlato : Bool
  isHertz : Bool
  isHertzfix : Bool
  isShanghai : Bool
  isKepler : Bool
  isFeynman : Bool
  isCancun : Bool
  isHaber : Bool
  isBohr : Bool
  isPascal : Bool
  isPrague : Bool
  isLorentz : Bool
  isMaxwell : Bool
  isFermi : Bool
  isOsaka : Bool
  isMendel : Bool
  isAmsterdam : Bool
  isPasteur : Bool
  isVerkle : Bool
deriving DecidableEq

/-- `Rules`; nothing ever sets the Cayenne flag. -/
def ChainConfig.rules (c : ChainConfig) (num : ℤ) (merge : Bool) (timestamp : ℕ) : Rules :=
  -- Merge cannot be set before London.
  let isMerge := merge && c.isLondon num
  let isVerkle := isMerge && c.isVerkle num timestamp
  { chainID := c.chainID.getD 0
    isHomestead := c.isHomestead num
    isEIP150 := c.isEIP150 num
    isEIP155 := c.isEIP155 num
    isEIP158 := c.isEIP158 num
    isByzantium := c.isByzantium num
    isConstantinople := c.isConstantinople num
    isPetersburg := c.isPetersburg num
    isIstanbul := c.isIstanbul num
    isBerlin := c.isBerlin num
    isEIP2929 := c.isBerlin num && !isVerkle
    isLondon := c.isLondon num
    isMerge := isMerge
    isNano := c.isNano num
    isMoran := c.isMoran num
    isPlanck := c.isPlanck num
    isLuban := c.isLuban num
    isPlato := c.isPlato num
    isHertz := c.isHertz num
    isHertzfix := c.isHertzfix num
    isShanghai := (isMerge || c.isInBSC) && c.isShanghai num timestamp
    isKepler := c.isKepler num timestamp
    isFeynman := c.isFeynman num timestamp
    isCancun := (isMerge || c.isInBSC) && c.isCancun num timestamp
    isHaber := c.isHaber num timestamp
    isBohr := c.isBohr num timestamp
    isPascal := c.isPascal num timestamp
    isPrague := (isMerge || c.isInBSC) && c.isPrague num timestamp
    isLorentz := c.isLorentz num timestamp
    isMaxwell := c.isMaxwell num timestamp
    isFermi := c.isFermi num timestamp
    isOsaka := (isMerge || c.isInBSC) && c.isOsaka num timestamp
    isMendel := c.isMendel num timestamp
    isAmsterdam := (isMerge || c.isInBSC) && c.isAmsterdam num timestamp
    isPasteur := c.isPasteur num timestamp
    isVerkle := c.isVerkle num timestamp
    hasRuntimeUpgrade := isBlockForked (c.block .runtimeUpgrade) num
    hasDeployOrigin := isBlockForked (c.block .deployOrigin) num
    hasDeploymentHookFix := isBlockForked (c.block .deploymentHookFix) num
    deployerFactory := isBlockForked (c.block .deployerFactory) num
    dragon8 := c.isDragon8 timestamp
    dragon8Fix := c.isDragon8Fix timestamp
    snake8 := c.isSnake8 timestamp
    deployerProxySunset := c.isDeployerProxySunsetTime timestamp
    isEIP4762 := isVerkle
    isCayenne := false }

/-! ## Compatibility -/

structure ConfigCompatError where
  what : String
  storedBlock : Option ℤ
  newBlock : Option ℤ
  storedTime : Option ℕ
  newTime : Option ℕ
  rewindToBlock : ℕ
  rewindToTime : ℕ
deriving DecidableEq

/-- The earlier of two scheduled forks. -/
def earlier {α : Type} [LT α] [DecidableLT α] (stored new : Option α) : Option α :=
  match stored, new with
  | none, new => new
  | some s, none => some s
  | some s, some n => if s < n then some s else some n

/-- `big.Int.Uint64`: the low bits of the magnitude. -/
def toUint64 (x : ℤ) : ℕ := x.natAbs % 2 ^ 64

def newBlockCompatError (what : String) (storedblock newblock : Option ℤ) : ConfigCompatError where
  what := what
  storedBlock := storedblock
  newBlock := newblock
  storedTime := none
  newTime := none
  rewindToBlock :=
    match earlier storedblock newblock with
    | none => 0
    | some rew => if 0 < rew then (toUint64 rew + (2 ^ 64 - 1)) % 2 ^ 64 else 0
  rewindToTime := 0

def newTimestampCompatError (what : String) (storedtime newtime : Option ℕ) :
    ConfigCompatError where
  what := what
  storedBlock := none
  newBlock := none
  storedTime := storedtime
  newTime := newtime
  rewindToBlock := 0
  rewindToTime := (earlier storedtime newtime).elim 0 (· - 1)

/-- `isForkBlockIncompatible`; two scheduled forks are equal when their numbers are. -/
def isForkBlockIncompatible (s1 s2 : Option ℤ) (head : ℤ) : Bool :=
  (isBlockForked s1 head || isBlockForked s2 head) && s1 != s2

def isForkTimestampIncompatible (s1 s2 : Option ℕ) (head : ℕ) : Bool :=
  (isTimestampForked s1 head || isTimestampForked s2 head) && s1 != s2

/-- The steps of `checkCompatible`. -/
inductive CompatCheck
  | block (what : String) (fork : BlockFork)
  | daoForkSupport
  | chainID
  | petersburg
  | time (what : String) (fork : TimeFork)

namespace ChainConfig

/-- One step of `checkCompatible`. -/
def checkStep (c newcfg : ChainConfig) (headNumber : ℤ) (headTimestamp : ℕ) :
    CompatCheck → Option ConfigCompatError
  | .block what fork =>
    if isForkBlockIncompatible (c.block fork) (newcfg.block fork) headNumber then
      some (newBlockCompatError what (c.block fork) (newcfg.block fork))
    else none
  | .daoForkSupport =>
    if c.isDAOFork headNumber && c.daoForkSupport != newcfg.daoForkSupport then
      some (newBlockCompatError "DAO fork support flag" (c.block .daoFork) (newcfg.block .daoFork))
    else none
  | .chainID =>
    if c.isEIP158 headNumber && c.chainID != newcfg.chainID then
      some (newBlockCompatError "EIP158 chain ID" (c.block .eip158) (newcfg.block .eip158))
    else none
  | .petersburg =>
    -- Petersburg may be set in the past when it is equal to Constantinople.
    if isForkBlockIncompatible (c.block .petersburg) (newcfg.block .petersburg) headNumber &&
        isForkBlockIncompatible (c.block .constantinople) (newcfg.block .petersburg) headNumber then
      some (newBlockCompatError "Petersburg fork block" (c.block .petersburg)
        (newcfg.block .petersburg))
    else none
  | .time what fork =>
    if isForkTimestampIncompatible (c.time fork) (newcfg.time fork) headTimestamp then
      some (newTimestampCompatError what (c.time fork) (newcfg.time fork))
    else none

/-- The steps in the order of the code. -/
def compatChecks : List CompatCheck :=
  [.block "Homestead fork block" .homestead,
   .block "DAO fork block" .daoFork,
   .daoForkSupport,
   .block "EIP150 fork block" .eip150,
   .block "EIP155 fork block" .eip155,
   .block "EIP158 fork block" .eip158,
   .chainID,
   .block "Byzantium fork block" .byzantium,
   .block "Constantinople fork block" .constantinople,
   .petersburg,
   .block "Istanbul fork block" .istanbul,
   .block "Muir Glacier fork block" .muirGlacier,
   .block "Berlin fork block" .berlin,
   .block "London fork block" .london,
   .block "Arrow Glacier fork block" .arrowGlacier,
   .block "Gray Glacier fork block" .grayGlacier,
   .block "Merge Start fork block" .mergeNetsplit,
   .block "ramanujan fork block" .ramanujan,
   .block "mirrorSync fork block" .mirrorSync,
   .block "bruno fork block" .bruno,
   .block "euler fork block" .euler,
   .block "gibbs fork block" .gibbs,
   .block "nano fork block" .nano,
   .block "moran fork block" .moran,
   .block "planck fork block" .planck,
   .block "luban fork block" .luban,
   .block "plato fork block" .plato,
   .block "hertz fork block" .hertz,
   .block "hertzfix fork block" .hertzfix,
   .time "Shanghai fork timestamp" .shanghai,
   .time "Kepler fork timestamp" .kepler,
   .time "Feynman fork timestamp" .feynman,
   .time "FeynmanFix fork timestamp" .feynmanFix,
   .time "Cancun fork timestamp" .cancun,
   .time "Haber fork timestamp" .haber,
   .time "HaberFix fork timestamp" .haberFix,
   .time "Bohr fork timestamp" .bohr,
   .time "Pascal fork timestamp" .pascal,
   .time "Prague fork timestamp" .prague,
   .time "Lorentz fork timestamp" .lorentz,
   .time "Maxwell fork timestamp" .maxwell,
   .time "FermiTime fork timestamp" .fermi,
   .time "Osaka fork timestamp" .osaka,
   .time "Mendel fork timestamp" .mendel,
   .time "Verkle fork timestamp" .verkle,
   .time "BPO1 fork timestamp" .bpo1,
   .time "BPO2 fork timestamp" .bpo2,
   .time "BPO3 fork timestamp" .bpo3,
   .time "BPO4 fork timestamp" .bpo4,
   .time "BPO5 fork timestamp" .bpo5,
   .time "Amsterdam fork timestamp" .amsterdam,
   .time "Pasteur fork timestamp" .pasteur]

/-- The first step that finds a conflict. -/
def checkCompatible (c newcfg : ChainConfig) (headNumber : ℤ) (headTimestamp : ℕ) :
    Option ConfigCompatError :=
  compatChecks.findSome? (c.checkStep newcfg headNumber headTimestamp)

/-- The loop of `CheckCompatible`, which rewinds to look for the lowest conflict: it starts at the
head with no last error. `none` means that the fuel ended first. -/
def checkCompatibleLoop (c newcfg : ChainConfig) :
    ℕ → ℕ → ℕ → Option ConfigCompatError → Option (Option ConfigCompatError)
  | 0, _, _, _ => none
  | fuel + 1, bhead, btime, lasterr =>
    match c.checkCompatible newcfg bhead btime with
    | none => some lasterr
    | some err =>
      if lasterr.any fun last =>
          err.rewindToBlock == last.rewindToBlock && err.rewindToTime == last.rewindToTime then
        some lasterr
      else if 0 < err.rewindToTime then
        c.checkCompatibleLoop newcfg fuel bhead err.rewindToTime (some err)
      else c.checkCompatibleLoop newcfg fuel err.rewindToBlock btime (some err)

end ChainConfig

end ChilizChain.Params
