import Chomsky.Text.Pattern.CharSet

/-!
# Sets of characters by property

The properties of characters that a pattern can name, with the characters of
ASCII that have them. Case, spaces, hyphens, underscores and a leading `is` do
not count in a name.

## What this module delivers

- `CharSet.ofProperty`, the set of a property that characters have or have not,
  of a general category or of a script.
- `CharSet.ofPropertyValue`, the set of a value of a property.
-/

set_option autoImplicit false

namespace Chomsky

/-- What is not known about a property. -/
inductive PropertyGap where
  /-- The property. -/
  | property
  /-- The value. -/
  | value

/-- Sets with the names that each goes by. -/
abbrev NamedSets := List (List String × CharSet)

namespace NamedSets

/-- The set of a name. -/
def find (sets : NamedSets) (name : String) : Option CharSet :=
  (List.find? (fun entry => entry.1.contains name) sets).map Prod.snd

end NamedSets

/-! ## Names -/

/-- A name without case, spaces, hyphens, underscores and characters outside
ASCII. A leading `is` does not count, except in `isc`, which stands for a
property of its own. -/
def looseName (name : String) : String :=
  let reduced (letters : List Char) : List Char :=
    (letters.filter fun c => decide (c.toNat < 128) && !"_- ".toList.contains c).map Char.toLower
  match name.toList with
  | i :: s :: rest =>
      if i.toLower == 'i' && s.toLower == 's' then
        if reduced rest = ['c'] then "isc" else String.ofList (reduced rest)
      else String.ofList (reduced (i :: s :: rest))
  | letters => String.ofList (reduced letters)

/-! ## Tables -/

/-- The marks of ASCII that are symbols. -/
def symbolMark : CharSet := CharSet.ofText "$+<=>^`|~"

/-- The marks of ASCII that are punctuation. -/
def punctuationMark : CharSet := fun c =>
  CharSet.range '!' '~' c && !CharSet.letter c && !CharSet.digit c && !symbolMark c

/-- The control characters of ASCII. -/
def controlCharacter : CharSet := fun c => decide (c.toNat < 32) || c.toNat == 127

/-- The general categories, and three sets that are named like categories. -/
def categories : NamedSets :=
  [(["any", "assigned"], fun _ => true), (["ascii"], fun c => decide (c.toNat < 128)),
   (["c", "other"], controlCharacter), (["cc", "control", "cntrl"], controlCharacter),
   (["cf", "format"], CharSet.nothing), (["cn", "unassigned"], CharSet.nothing),
   (["co", "privateuse"], CharSet.nothing), (["l", "letter"], CharSet.letter),
   (["lc", "casedletter"], CharSet.letter), (["ll", "lowercaseletter"], CharSet.range 'a' 'z'),
   (["lm", "modifierletter"], CharSet.nothing), (["lo", "otherletter"], CharSet.nothing),
   (["lt", "titlecaseletter"], CharSet.nothing),
   (["lu", "uppercaseletter"], CharSet.range 'A' 'Z'),
   (["m", "mark", "combiningmark"], CharSet.nothing), (["mc", "spacingmark"], CharSet.nothing),
   (["me", "enclosingmark"], CharSet.nothing), (["mn", "nonspacingmark"], CharSet.nothing),
   (["n", "number"], CharSet.digit), (["nd", "decimalnumber", "digit"], CharSet.digit),
   (["nl", "letternumber"], CharSet.nothing), (["no", "othernumber"], CharSet.nothing),
   (["p", "punctuation", "punct"], punctuationMark),
   (["pc", "connectorpunctuation"], CharSet.single '_'),
   (["pd", "dashpunctuation"], CharSet.single '-'),
   (["pe", "closepunctuation"], CharSet.ofText ")]\x7d"),
   (["pf", "finalpunctuation"], CharSet.nothing), (["pi", "initialpunctuation"], CharSet.nothing),
   (["po", "otherpunctuation"], CharSet.ofText "!\"#%&'*,./:;?@\\"),
   (["ps", "openpunctuation"], CharSet.ofText "([\x7b"), (["s", "symbol"], symbolMark),
   (["sc", "currencysymbol"], CharSet.single '$'), (["sk", "modifiersymbol"], CharSet.ofText "^`"),
   (["sm", "mathsymbol"], CharSet.ofText "+<=>|~"), (["so", "othersymbol"], CharSet.nothing),
   (["z", "separator"], CharSet.single ' '), (["zl", "lineseparator"], CharSet.nothing),
   (["zp", "paragraphseparator"], CharSet.nothing), (["zs", "spaceseparator"], CharSet.single ' ')]

/-- The name of the general category whose members are no characters. -/
def surrogateNames : List String := ["cs", "surrogate"]

/-- The properties that characters have or have not. -/
def binaryProperties : NamedSets :=
  [(["asciihexdigit", "ahex", "hexdigit", "hex"],
     (CharSet.digit.union (CharSet.range 'A' 'F')).union (CharSet.range 'a' 'f')),
   (["alphabetic", "alpha", "cased", "changeswhencasemapped", "cwcm", "idstart", "ids",
     "xidstart", "xids"], CharSet.letter),
   (["lowercase", "lower", "changeswhenuppercased", "cwu", "changeswhentitlecased", "cwt"],
     CharSet.range 'a' 'z'),
   (["uppercase", "upper", "changeswhenlowercased", "cwl", "changeswhencasefolded", "cwcf"],
     CharSet.range 'A' 'Z'),
   (["idcontinue", "idc", "xidcontinue", "xidc"], CharSet.word),
   (["caseignorable", "ci"], CharSet.ofText "'.:^`"), (["dash", "hyphen"], CharSet.single '-'),
   (["diacritic", "dia"], CharSet.ofText "^`"),
   (["emoji", "emojicomponent", "ecomp"], CharSet.digit.union (CharSet.ofText "#*")),
   (["graphemebase", "grbase"], CharSet.range ' ' '~'), (["math"], CharSet.ofText "+<=>^|~"),
   (["othermath", "omath"], CharSet.single '^'),
   (["patternsyntax", "patsyn"], fun c => (punctuationMark c || symbolMark c) && c != '_'),
   (["patternwhitespace", "patws", "whitespace", "wspace", "space"], CharSet.blank),
   (["quotationmark", "qmark"], CharSet.ofText "\"'"),
   (["sentenceterminal", "sterm"], CharSet.ofText "!.?"),
   (["softdotted", "sd"], CharSet.ofText "ij"),
   (["terminalpunctuation", "term"], CharSet.ofText "!,.:;?"),
   (["bidicontrol", "bidic", "defaultignorablecodepoint", "di", "deprecated", "dep",
     "emojimodifier", "emod", "emojimodifierbase", "ebase", "emojipresentation", "epres",
     "extendedpictographic", "extpict", "extender", "ext", "graphemeextend", "grext",
     "graphemelink", "grlink", "idsbinaryoperator", "idsb", "idstrinaryoperator", "idst",
     "idsunaryoperator", "idsu", "idcompatmathstart", "idcompatmathcontinue", "ideographic",
     "ideo", "joincontrol", "joinc", "logicalorderexception", "loe", "modifiercombiningmark", "mcm",
     "noncharactercodepoint", "nchar", "otheralphabetic", "oalpha",
     "otherdefaultignorablecodepoint", "odi", "othergraphemeextend", "ogrext", "otheridcontinue",
     "oidc", "otheridstart", "oids", "otherlowercase", "olower", "otheruppercase", "oupper",
     "prependedconcatenationmark", "pcm", "radical", "regionalindicator", "ri",
     "unifiedideograph", "uideo", "variationselector", "vs"], CharSet.nothing)]

/-- The properties that have other values than yes and no, or that no set is
known of. -/
def otherProperties : List String :=
  ["age", "bc", "bidiclass", "bidim", "bidimirrored", "bidimirroringglyph", "bmg",
   "bidipairedbracket", "bpb", "bidipairedbrackettype", "bpt", "blk", "block",
   "canonicalcombiningclass", "ccc", "casefolding", "cf", "changeswhennfkccasefolded", "cwkcf",
   "compositionexclusion", "ce", "fullcompositionexclusion", "compex", "decompositionmapping",
   "dm", "decompositiontype", "dt", "eastasianwidth", "ea", "equivalentunifiedideograph",
   "equideo", "expandsonnfc", "xonfc", "expandsonnfd", "xonfd", "expandsonnfkc", "xonfkc",
   "expandsonnfkd", "xonfkd", "fcnfkcclosure", "fcnfkc", "graphemeclusterbreak", "gcb",
   "generalcategory", "gc", "hangulsyllabletype", "hst", "indicconjunctbreak", "incb",
   "indicpositionalcategory", "inpc", "indicsyllabiccategory", "insc", "isccomment", "isc",
   "isocomment", "jamoshortname", "jsn", "joininggroup", "jg", "joiningtype", "jt", "linebreak",
   "lb", "lowercasemapping", "lc", "name", "na", "name1", "unicode1name", "na1", "namealias",
   "nfcquickcheck", "nfcqc", "nfdquickcheck", "nfdqc", "nfkccasefold", "nfkccf",
   "nfkcsimplecasefold", "nfkcscf", "nfkcquickcheck", "nfkcqc", "nfkdquickcheck", "nfkdqc",
   "numerictype", "nt", "numericvalue", "nv", "script", "sc", "scriptextensions", "scx",
   "sentencebreak", "sb", "simplecasefolding", "scf", "sfc", "simplelowercasemapping", "slc",
   "simpletitlecasemapping", "stc", "simpleuppercasemapping", "suc", "titlecasemapping", "tc",
   "unicoderadicalstroke", "urs", "uppercasemapping", "uc", "verticalorientation", "vo",
   "wordbreak", "wb"]

/-- The scripts, but for Latin and what is common to all, without members in
ASCII. -/
def otherScripts : List String :=
  ["adlam", "adlm", "aghb", "ahom", "anatolianhieroglyphs", "arab", "arabic", "armenian", "armi",
   "armn", "avestan", "avst", "bali", "balinese", "bamu", "bamum", "bass", "bassavah", "batak",
   "batk", "beng", "bengali", "bhaiksuki", "bhks", "bopo", "bopomofo", "brah", "brahmi", "brai",
   "braille", "bugi", "buginese", "buhd", "buhid", "cakm", "canadianaboriginal", "cans", "cari",
   "carian", "caucasianalbanian", "chakma", "cham", "cher", "cherokee", "chorasmian", "chrs",
   "copt", "coptic", "cpmn", "cprt", "cuneiform", "cypriot", "cyprominoan", "cyrillic", "cyrl",
   "deseret", "deva", "devanagari", "diak", "divesakuru", "dogr", "dogra", "dsrt", "dupl",
   "duployan", "egyp", "egyptianhieroglyphs", "elba", "elbasan", "elym", "elymaic", "ethi",
   "ethiopic", "gara", "garay", "geor", "georgian", "glag", "glagolitic", "gong", "gonm", "goth",
   "gothic", "gran", "grantha", "greek", "grek", "gujarati", "gujr", "gukh", "gunjalagondi",
   "gurmukhi", "guru", "gurungkhema", "han", "hang", "hangul", "hani", "hanifirohingya", "hano",
   "hanunoo", "hatr", "hatran", "hebr", "hebrew", "hira", "hiragana", "hluw", "hmng", "hmnp",
   "hung", "imperialaramaic", "inherited", "inscriptionalpahlavi", "inscriptionalparthian",
   "ital", "java", "javanese", "kaithi", "kali", "kana", "kannada", "katakana", "kawi", "kayahli",
   "khar", "kharoshthi", "khitansmallscript", "khmer", "khmr", "khoj", "khojki", "khudawadi",
   "kiratrai", "kits", "knda", "krai", "kthi", "lana", "lao", "laoo", "lepc", "lepcha", "limb",
   "limbu", "lina", "linb", "lineara", "linearb", "lisu", "lyci", "lycian", "lydi", "lydian",
   "mahajani", "mahj", "maka", "makasar", "malayalam", "mand", "mandaic", "mani", "manichaean",
   "marc", "marchen", "masaramgondi", "medefaidrin", "medf", "meeteimayek", "mend",
   "mendekikakui", "merc", "mero", "meroiticcursive", "meroitichieroglyphs", "miao", "mlym",
   "modi", "mong", "mongolian", "mro", "mroo", "mtei", "mult", "multani", "myanmar", "mymr",
   "nabataean", "nagm", "nagmundari", "nand", "nandinagari", "narb", "nbat", "newa", "newtailue",
   "nko", "nkoo", "nshu", "nushu", "nyiakengpuachuehmong", "ogam", "ogham", "olchiki", "olck",
   "oldhungarian", "olditalic", "oldnortharabian", "oldpermic", "oldpersian", "oldsogdian",
   "oldsoutharabian", "oldturkic", "olduyghur", "olonal", "onao", "oriya", "orkh", "orya",
   "osage", "osge", "osma", "osmanya", "ougr", "pahawhhmong", "palm", "palmyrene", "pauc",
   "paucinhau", "perm", "phag", "phagspa", "phli", "phlp", "phnx", "phoenician", "plrd", "prti",
   "psalterpahlavi", "qaac", "qaai", "rejang", "rjng", "rohg", "runic", "runr", "samaritan",
   "samr", "sarb", "saur", "saurashtra", "sgnw", "sharada", "shavian", "shaw", "shrd", "sidd",
   "siddham", "signwriting", "sind", "sinh", "sinhala", "sogd", "sogdian", "sogo", "sora",
   "sorasompeng", "soyo", "soyombo", "sund", "sundanese", "sunu", "sunuwar", "sylo",
   "sylotinagri", "syrc", "syriac", "tagalog", "tagb", "tagbanwa", "taile", "taitham", "taiviet",
   "takr", "takri", "tale", "talu", "tamil", "taml", "tang", "tangsa", "tangut", "tavt", "telu",
   "telugu", "tfng", "tglg", "thaa", "thaana", "thai", "tibetan", "tibt", "tifinagh", "tirh",
   "tirhuta", "tnsa", "todhri", "todr", "toto", "tulutigalari", "tutg", "ugar", "ugaritic", "vai",
   "vaii", "vith", "vithkuqi", "wancho", "wara", "warangciti", "wcho", "xpeo", "xsux", "yezi",
   "yezidi", "yi", "yiii", "zanabazarsquare", "zanb", "zinh"]

/-- The scripts. -/
def scripts : NamedSets :=
  [(["latin", "latn"], CharSet.letter),
   (["common", "zyyy"], fun c => decide (c.toNat < 128) && !CharSet.letter c),
   (otherScripts, CharSet.nothing)]

/-- The names of scripts that no character has. -/
def emptyScripts : List String := ["unknown", "zzzz", "katakanaorhiragana", "hrkt"]

/-- The versions in which characters were added. All of ASCII was there from the
first, and a set holds what earlier versions had. -/
def ages : NamedSets :=
  [(["1.1", "2.0", "2.1", "3.0", "3.1", "3.2", "4.0", "4.1", "5.0", "5.1", "5.2", "6.0", "6.1",
     "6.2", "6.3", "7.0", "8.0", "9.0", "10.0", "11.0", "12.0", "12.1", "13.0", "14.0", "15.0",
     "15.1", "16.0", "v11", "v20", "v21", "v30", "v31", "v32", "v40", "v41", "v50", "v51", "v52",
     "v60", "v61", "v62", "v63", "v70", "v80", "v90", "v100", "v110", "v120", "v121", "v130",
     "v140", "v150", "v151", "v160"], fun c => decide (c.toNat < 128))]

/-- Where clusters of marks can be broken. -/
def clusterBreaks : NamedSets :=
  [(["cr"], CharSet.single '\r'), (["lf"], CharSet.single '\n'),
   (["control", "cn"], fun c => controlCharacter c && c != '\r' && c != '\n'),
   (["extend", "ex", "l", "lv", "lvt", "prepend", "pp", "regionalindicator", "ri", "spacingmark",
     "sm", "t", "v", "zwj"], CharSet.nothing)]

/-- Where words can be broken. -/
def wordBreaks : NamedSets :=
  [(["cr"], CharSet.single '\r'), (["lf"], CharSet.single '\n'),
   (["newline", "nl"], CharSet.ofText "\x0b\x0c"), (["aletter", "le"], CharSet.letter),
   (["numeric", "nu"], CharSet.digit), (["extendnumlet", "ex"], CharSet.single '_'),
   (["doublequote", "dq"], CharSet.single '"'), (["singlequote", "sq"], CharSet.single '\''),
   (["midletter", "ml"], CharSet.single ':'), (["midnum", "mn"], CharSet.ofText ",;"),
   (["midnumlet", "mb"], CharSet.single '.'), (["wsegspace"], CharSet.single ' '),
   (["extend", "format", "fo", "hebrewletter", "hl", "katakana", "ka", "regionalindicator", "ri",
     "zwj"], CharSet.nothing)]

/-- Where sentences can be broken. -/
def sentenceBreaks : NamedSets :=
  [(["cr"], CharSet.single '\r'), (["lf"], CharSet.single '\n'),
   (["aterm", "at"], CharSet.single '.'), (["close", "cl"], CharSet.ofText "\"'()[]\x7b\x7d"),
   (["lower", "lo"], CharSet.range 'a' 'z'), (["upper", "up"], CharSet.range 'A' 'Z'),
   (["numeric", "nu"], CharSet.digit), (["scontinue", "sc"], CharSet.ofText ",-:;"),
   (["sp"], CharSet.ofText "\t\x0b\x0c "), (["sterm", "st"], CharSet.ofText "!?"),
   (["extend", "ex", "format", "fo", "oletter", "le", "sep", "se"], CharSet.nothing)]

/-! ## Look-up -/

namespace CharSet

/-- The set of a name that is given alone: of a property that characters have or
have not, of a general category or of a script, in this order. -/
def ofProperty (name : String) : Except PropertyGap CharSet :=
  let name := looseName name
  match binaryProperties.find name, categories.find name, scripts.find name with
  | some set, _, _ => .ok set
  | none, some set, _ => .ok set
  | none, none, some set => .ok set
  | none, none, none =>
      if surrogateNames.contains name || emptyScripts.contains name then .error .value
      else .error .property

/-- The set of a value of a property. -/
def ofPropertyValue (name value : String) : Except PropertyGap CharSet :=
  let name := looseName name
  let found : Option CharSet → Except PropertyGap CharSet
    | some set => .ok set
    | none => .error .value
  let value := looseName value
  match name with
  | "gc" | "generalcategory" => found (categories.find value)
  | "sc" | "script" | "scx" | "scriptextensions" => found (scripts.find value)
  | "age" => found (ages.find value)
  | "gcb" | "graphemeclusterbreak" => found (clusterBreaks.find value)
  | "wb" | "wordbreak" => found (wordBreaks.find value)
  | "sb" | "sentencebreak" => found (sentenceBreaks.find value)
  | _ =>
      if otherProperties.contains name || (binaryProperties.find name).isSome then .error .value
      else .error .property

end CharSet

end Chomsky
