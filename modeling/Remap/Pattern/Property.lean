import Remap.Pattern.Error
import Remap.Pattern.Term

/-!
# Unicode properties

The names by which a pattern may ask for a class of characters. Case, blanks, hyphens and underscores do not count, nor
does `is` at the start. A name alone asks for a property that holds or not, a category or a script; a name and a value ask
for a property with values.
-/

namespace Remap.Pattern

/-- General categories, by short and long name, and the classes that go with them. -/
def categories : List String :=
  ["any", "assigned", "ascii", "c", "other", "cc", "control", "cntrl", "cf", "format", "cn", "unassigned", "co",
    "privateuse", "l", "letter", "lc", "casedletter", "ll", "lowercaseletter", "lm", "modifierletter", "lo",
    "otherletter", "lt", "titlecaseletter", "lu", "uppercaseletter", "m", "mark", "combiningmark", "mc", "spacingmark",
    "me", "enclosingmark", "mn", "nonspacingmark", "n", "number", "nd", "decimalnumber", "digit", "nl", "letternumber",
    "no", "othernumber", "p", "punctuation", "punct", "pc", "connectorpunctuation", "pd", "dashpunctuation", "pe",
    "closepunctuation", "pf", "finalpunctuation", "pi", "initialpunctuation", "po", "otherpunctuation", "ps",
    "openpunctuation", "s", "symbol", "sc", "currencysymbol", "sk", "modifiersymbol", "sm", "mathsymbol", "so",
    "othersymbol", "z", "separator", "zl", "lineseparator", "zp", "paragraphseparator", "zs", "spaceseparator"]

/-- Properties that hold or do not hold, by short and long name. -/
def binaryProperties : List String :=
  ["ahex", "asciihexdigit", "alpha", "alphabetic", "bidic", "bidicontrol", "bidim", "bidimirrored", "cased", "ci",
    "caseignorable", "cwcf", "changeswhencasefolded", "cwcm", "changeswhencasemapped", "cwl", "changeswhenlowercased",
    "cwt", "changeswhentitlecased", "cwu", "changeswhenuppercased", "dash", "dep", "deprecated", "di",
    "defaultignorablecodepoint", "dia", "diacritic", "ebase", "emojimodifierbase", "ecomp", "emojicomponent", "emod",
    "emojimodifier", "emoji", "epres", "emojipresentation", "ext", "extender", "extpict", "extendedpictographic",
    "grbase", "graphemebase", "grext", "graphemeextend", "grlink", "graphemelink", "hex", "hexdigit", "hyphen",
    "idcompatmathcontinue", "idcompatmathstart", "idc", "idcontinue", "ideo", "ideographic", "ids", "idstart", "idsb",
    "idsbinaryoperator", "idst", "idstrinaryoperator", "idsu", "idsunaryoperator", "joinc", "joincontrol", "loe",
    "logicalorderexception", "lower", "lowercase", "math", "mcm", "modifiercombiningmark", "nchar",
    "noncharactercodepoint", "oalpha", "otheralphabetic", "odi", "otherdefaultignorablecodepoint", "ogrext",
    "othergraphemeextend", "oidc", "otheridcontinue", "oids", "otheridstart", "olower", "otherlowercase", "omath",
    "othermath", "oupper", "otheruppercase", "patsyn", "patternsyntax", "patws", "patternwhitespace", "pcm",
    "prependedconcatenationmark", "qmark", "quotationmark", "radical", "ri", "regionalindicator", "sd", "softdotted",
    "sterm", "sentenceterminal", "term", "terminalpunctuation", "uideo", "unifiedideograph", "upper", "uppercase",
    "vs", "variationselector", "wspace", "whitespace", "space", "xidc", "xidcontinue", "xids", "xidstart"]

/-- Scripts, by code and by long name. -/
def scripts : List String :=
  ["adlam", "adlm", "aghb", "ahom", "anatolianhieroglyphs", "arab", "arabic", "armenian", "armi", "armn", "avestan",
    "avst", "bali", "balinese", "bamu", "bamum", "bass", "bassavah", "batak", "batk", "beng", "bengali", "berf",
    "beriaerfe", "bhaiksuki", "bhks", "bopo", "bopomofo", "brah", "brahmi", "brai", "braille", "bugi", "buginese",
    "buhd", "buhid", "cakm", "canadianaboriginal", "cans", "cari", "carian", "caucasianalbanian", "chakma", "cham",
    "cher", "cherokee", "chorasmian", "chrs", "common", "copt", "coptic", "cpmn", "cprt", "cuneiform", "cypriot",
    "cyprominoan", "cyrillic", "cyrl", "deseret", "deva", "devanagari", "diak", "divesakuru", "dogr", "dogra", "dsrt",
    "dupl", "duployan", "egyp", "egyptianhieroglyphs", "elba", "elbasan", "elym", "elymaic", "ethi", "ethiopic",
    "gara", "garay", "geor", "georgian", "glag", "glagolitic", "gong", "gonm", "goth", "gothic", "gran", "grantha",
    "greek", "grek", "gujarati", "gujr", "gukh", "gunjalagondi", "gurmukhi", "guru", "gurungkhema", "han", "hang",
    "hangul", "hani", "hanifirohingya", "hano", "hanunoo", "hatr", "hatran", "hebr", "hebrew", "hira", "hiragana",
    "hluw", "hmng", "hmnp", "hung", "imperialaramaic", "inherited", "inscriptionalpahlavi", "inscriptionalparthian",
    "ital", "java", "javanese", "kaithi", "kali", "kana", "kannada", "katakana", "kawi", "kayahli", "khar",
    "kharoshthi", "khitansmallscript", "khmer", "khmr", "khoj", "khojki", "khudawadi", "kiratrai", "kits", "knda",
    "krai", "kthi", "lana", "lao", "laoo", "latin", "latn", "lepc", "lepcha", "limb", "limbu", "lina", "linb",
    "lineara", "linearb", "lisu", "lyci", "lycian", "lydi", "lydian", "mahajani", "mahj", "maka", "makasar",
    "malayalam", "mand", "mandaic", "mani", "manichaean", "marc", "marchen", "masaramgondi", "medefaidrin", "medf",
    "meeteimayek", "mend", "mendekikakui", "merc", "mero", "meroiticcursive", "meroitichieroglyphs", "miao", "mlym",
    "modi", "mong", "mongolian", "mro", "mroo", "mtei", "mult", "multani", "myanmar", "mymr", "nabataean", "nagm",
    "nagmundari", "nand", "nandinagari", "narb", "nbat", "newa", "newtailue", "nko", "nkoo", "nshu", "nushu",
    "nyiakengpuachuehmong", "ogam", "ogham", "olchiki", "olck", "oldhungarian", "olditalic", "oldnortharabian",
    "oldpermic", "oldpersian", "oldsogdian", "oldsoutharabian", "oldturkic", "olduyghur", "olonal", "onao", "oriya",
    "orkh", "orya", "osage", "osge", "osma", "osmanya", "ougr", "pahawhhmong", "palm", "palmyrene", "pauc",
    "paucinhau", "perm", "phag", "phagspa", "phli", "phlp", "phnx", "phoenician", "plrd", "prti", "psalterpahlavi",
    "qaac", "qaai", "rejang", "rjng", "rohg", "runic", "runr", "samaritan", "samr", "sarb", "saur", "saurashtra",
    "sgnw", "sharada", "shavian", "shaw", "shrd", "sidd", "siddham", "sidetic", "sidt", "signwriting", "sind", "sinh",
    "sinhala", "sogd", "sogdian", "sogo", "sora", "sorasompeng", "soyo", "soyombo", "sund", "sundanese", "sunu",
    "sunuwar", "sylo", "sylotinagri", "syrc", "syriac", "tagalog", "tagb", "tagbanwa", "taile", "taitham", "taiviet",
    "taiyo", "takr", "takri", "tale", "talu", "tamil", "taml", "tang", "tangsa", "tangut", "tavt", "tayo", "telu",
    "telugu", "tfng", "tglg", "thaa", "thaana", "thai", "tibetan", "tibt", "tifinagh", "tirh", "tirhuta", "tnsa",
    "todhri", "todr", "tolongsiki", "tols", "toto", "tulutigalari", "tutg", "ugar", "ugaritic", "vai", "vaii", "vith",
    "vithkuqi", "wancho", "wara", "warangciti", "wcho", "xpeo", "xsux", "yezi", "yezidi", "yi", "yiii",
    "zanabazarsquare", "zanb", "zinh", "zyyy"]

/-- Versions of the standard, by number and by name. -/
def ages : List String :=
  ["1.1", "v11", "2.0", "v20", "2.1", "v21", "3.0", "v30", "3.1", "v31", "3.2", "v32", "4.0", "v40", "4.1", "v41",
    "5.0", "v50", "5.1", "v51", "5.2", "v52", "6.0", "v60", "6.1", "v61", "6.2", "v62", "6.3", "v63", "7.0", "v70",
    "8.0", "v80", "9.0", "v90", "10.0", "v100", "11.0", "v110", "12.0", "v120", "12.1", "v121", "13.0", "v130", "14.0",
    "v140", "15.0", "v150", "15.1", "v151", "16.0", "v160", "17.0", "v170"]

/-- Classes that decide where a character as the reader sees it ends. -/
def clusterBreaks : List String :=
  ["cn", "control", "cr", "ex", "extend", "l", "lf", "lv", "lvt", "pp", "prepend", "ri", "regionalindicator", "sm",
    "spacingmark", "t", "v", "zwj"]

/-- Classes that decide where a word ends. -/
def wordBreaks : List String :=
  ["le", "aletter", "cr", "dq", "doublequote", "extend", "ex", "extendnumlet", "fo", "format", "hl", "hebrewletter",
    "ka", "katakana", "lf", "ml", "midletter", "mn", "midnum", "mb", "midnumlet", "nl", "newline", "nu", "numeric",
    "ri", "regionalindicator", "sq", "singlequote", "wsegspace", "zwj"]

/-- Classes that decide where a sentence ends. -/
def sentenceBreaks : List String :=
  ["at", "aterm", "cl", "close", "cr", "ex", "extend", "fo", "format", "lf", "lo", "lower", "nu", "numeric", "le",
    "oletter", "sc", "scontinue", "se", "sep", "sp", "st", "sterm", "up", "upper"]

/-- Properties of which the standard gives the name, but for which no class can be asked. -/
def otherProperties : List String :=
  ["cjkaccountingnumeric", "kaccountingnumeric", "cjkothernumeric", "kothernumeric", "cjkprimarynumeric",
    "kprimarynumeric", "nv", "numericvalue", "bmg", "bidimirroringglyph", "bpb", "bidipairedbracket", "cf",
    "casefolding", "cjkcompatibilityvariant", "kcompatibilityvariant", "dm", "decompositionmapping", "equideo",
    "equivalentunifiedideograph", "fcnfkc", "fcnfkcclosure", "lc", "lowercasemapping", "nfkccf", "nfkccasefold",
    "nfkcscf", "nfkcsimplecasefold", "scf", "sfc", "simplecasefolding", "slc", "simplelowercasemapping", "stc",
    "simpletitlecasemapping", "suc", "simpleuppercasemapping", "tc", "titlecasemapping", "uc", "uppercasemapping",
    "cjkiicore", "kiicore", "cjkirggsource", "kirggsource", "cjkirghsource", "kirghsource", "cjkirgjsource",
    "kirgjsource", "cjkirgkpsource", "kirgkpsource", "cjkirgksource", "kirgksource", "cjkirgmsource", "kirgmsource",
    "cjkirgssource", "kirgssource", "cjkirgtsource", "kirgtsource", "cjkirguksource", "kirguksource", "cjkirgusource",
    "kirgusource", "cjkirgvsource", "kirgvsource", "cjkmandarin", "kmandarin", "cjktotalstrokes", "ktotalstrokes",
    "cjkunihancore2020", "kunihancore2020", "kehcat", "kehdesc", "kehhg", "kehifao", "kehjsesh", "kehnomirror",
    "kehnorotate", "cjkrsunicode", "krsunicode", "unicoderadicalstroke", "urs", "isc", "isocomment", "jsn",
    "jamoshortname", "na", "name", "na1", "unicode1name", "namealias", "blk", "block", "bc", "bidiclass", "bpt",
    "bidipairedbrackettype", "ccc", "canonicalcombiningclass", "dt", "decompositiontype", "ea", "eastasianwidth",
    "hst", "hangulsyllabletype", "incb", "indicconjunctbreak", "inpc", "indicpositionalcategory", "insc",
    "indicsyllabiccategory", "jg", "joininggroup", "jt", "joiningtype", "lb", "linebreak", "nfcqc", "nfcquickcheck",
    "nfdqc", "nfdquickcheck", "nfkcqc", "nfkcquickcheck", "nfkdqc", "nfkdquickcheck", "nt", "numerictype", "vo",
    "verticalorientation", "ce", "compositionexclusion", "compex", "fullcompositionexclusion", "cwkcf",
    "changeswhennfkccasefolded", "xonfc", "expandsonnfc", "xonfd", "expandsonnfd", "xonfkc", "expandsonnfkc", "xonfkd",
    "expandsonnfkd"]

/-- Categories and scripts that have a name but no class. -/
def emptyClasses : List String :=
  ["cs", "surrogate", "zzzz", "unknown", "hrkt", "katakanaorhiragana"]

/-- A name without what does not count. The name `isc` is kept whole, because it does not ask for the category `c`. -/
def normalName (name : Text) : String :=
  let lower := name.map Char.toLower
  let marked := ['i', 's'].isPrefixOf lower
  let bare := (if marked then lower.drop 2 else lower).filter fun c => c ≠ ' ' && c ≠ '_' && c ≠ '-' && c.toNat < 0x80
  if marked && bare = ['c'] then "isc" else String.ofList bare

/-- The values of a property with values. -/
def valuesOf? (name : String) : Option (List String) :=
  if ["gc", "generalcategory"].contains name then some categories
  else if ["sc", "script", "scx", "scriptextensions"].contains name then some scripts
  else if name = "age" then some ages
  else if ["gcb", "graphemeclusterbreak"].contains name then some clusterBreaks
  else if ["wb", "wordbreak"].contains name then some wordBreaks
  else if ["sb", "sentencebreak"].contains name then some sentenceBreaks
  else if binaryProperties.contains name || otherProperties.contains name then some []
  else none

/-- Whether a pattern may ask for a property. -/
def Property.check (p : Property) : Except Error Unit :=
  let name := normalName p.name
  match p.value with
  | none =>
    if categories.contains name || binaryProperties.contains name || scripts.contains name then .ok ()
    else if emptyClasses.contains name then .error .unicodePropertyValueNotFound
    else .error .unicodePropertyNotFound
  | some value =>
    match valuesOf? name with
    | some values => if values.contains (normalName value) then .ok () else .error .unicodePropertyValueNotFound
    | none => .error .unicodePropertyNotFound

end Remap.Pattern
